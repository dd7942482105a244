import Blockwork.Assembly.Generate
import Blockwork.Proofs.Machine

/-!
# Pieces of code in a program

Where a piece of code stands among the lines of a program, and what a machine does that comes to it.

* `CodeAt`: a piece without an obstacle stands at a line; it is split where the piece is.
* `CodeAt.instruction`, `CodeAt.define`: the first line of a piece.
* `runs_effects`: a machine runs through instructions that go on to the next line.
* `runs_jump`, `runs_branchNotEqual`, `runs_branchEqual`: the instructions that go on at labels.
-/

namespace Blockwork

open Code

/-- A piece of code without an obstacle stands at a line. -/
structure CodeAt (lines : List Line) (n : Nat) (c : Code) : Prop where
  obstacle : c.obstacle = none
  lines : c.lines <+: lines.drop n

namespace CodeAt

variable {lines : List Line} {n : Nat} {a b c : Code}

theorem left (h : CodeAt lines n (a ++ b)) : CodeAt lines n a := by
  obtain ⟨ho, hl⟩ := h
  have ha : a.obstacle = none := by
    rw [append_def] at ho
    split at ho
    · assumption
    · exact ho
  rw [lines_append ha] at hl
  exact ⟨ha, (List.prefix_append _ _).trans hl⟩

theorem right (h : CodeAt lines n (a ++ b)) : CodeAt lines (n + a.lines.length) b := by
  have ha := h.left.obstacle
  obtain ⟨ho, hl⟩ := h
  rw [append_def, ha] at ho
  rw [lines_append ha] at hl
  obtain ⟨rest, hl⟩ := hl
  refine ⟨ho, rest, ?_⟩
  rw [← List.drop_drop, ← hl, List.append_assoc, List.drop_left]

theorem length_append (h : CodeAt lines n (a ++ b)) :
    (a ++ b).lines.length = a.lines.length + b.lines.length := by
  rw [lines_append h.left.obstacle, List.length_append]

theorem mint (h : CodeAt lines n (Code.mint ++ c)) : CodeAt lines n c := h.right

theorem none (lines : List Line) (n : Nat) : CodeAt lines n empty := ⟨rfl, List.nil_prefix⟩

theorem getElem (h : CodeAt lines n c) {line : Line} {rest : List Line}
    (hc : c.lines = line :: rest) : lines[n]? = some line := by
  obtain ⟨tail, hl⟩ := h.lines
  rw [hc, List.cons_append] at hl
  rw [← List.head?_drop, ← hl, List.head?_cons]

end CodeAt

@[simp] theorem Code.lines_ofLines (ls : List Line) : (ofLines ls).lines = ls := by
  rw [ofLines, Code.lines, List.filterMap_map]
  exact List.filterMap_some

@[simp] theorem Code.lines_ofInstructions (is : List Instruction) :
    (ofInstructions is).lines = is.map .instruction := lines_ofLines _

theorem Code.lines_mint_append (c : Code) : (Code.mint ++ c).lines = c.lines := rfl

theorem Code.ofLines_append (as bs : List Line) :
    ofLines (as ++ bs) = ofLines as ++ ofLines bs := by
  simp [ofLines, append_def]

theorem Code.ofInstructions_append (as bs : List Instruction) :
    ofInstructions (as ++ bs) = ofInstructions as ++ ofInstructions bs := by
  simp only [ofInstructions, List.map_append, ofLines_append]

namespace CodeAt

variable {lines : List Line} {n : Nat} {i : Instruction} {is : List Instruction}

theorem instruction (h : CodeAt lines n (ofInstructions (i :: is))) :
    lines[n]? = some (.instruction i) :=
  h.getElem (lines_ofInstructions _)

theorem tail (h : CodeAt lines n (ofInstructions (i :: is))) :
    CodeAt lines (n + 1) (ofInstructions is) :=
  CodeAt.right (a := ofInstructions [i]) ⟨h.obstacle, h.lines⟩

theorem define {label : Label} (h : CodeAt lines n (ofLines [.define label])) :
    lines[n]? = some (.define label) :=
  h.getElem (lines_ofLines _)

end CodeAt

namespace Machine

variable {lines : List Line} {m m' : Machine} {is : List Instruction} {label : Label}

/-- A machine runs through instructions that go on to the next line. -/
theorem runs_effects (hc : CodeAt lines m.line (ofInstructions is)) (hr : m.exitCode = none)
    (he : m.effects lines is = some m') : Runs lines m (m'.goto (m.line + is.length)) := by
  induction is generalizing m m' with
  | nil =>
    cases he
    exact .refl
  | cons i is ih =>
    obtain ⟨m₁, hi, he⟩ := Option.bind_eq_some_iff.1 he
    have hstep := step_of_effect hr hc.instruction hi
    have hx := (effect_keeps hi).2
    have he' : (m₁.goto (m.line + 1)).effects lines is = some (m'.goto (m.line + 1)) := by
      rw [effects_goto, he]
      rfl
    have hrest := ih (m := m₁.goto (m.line + 1)) hc.tail (by rw [goto_exitCode, hx, hr]) he'
    rw [List.length_cons, Nat.add_comm is.length, ← Nat.add_assoc]
    exact (Runs.single hstep).trans hrest

theorem runs_define (hc : CodeAt lines m.line (ofLines [.define label])) (hr : m.exitCode = none) :
    Runs lines m (m.goto (m.line + 1)) :=
  .single (step_of_define hr hc.define)

theorem runs_jump (hc : CodeAt lines m.line (ofInstructions [.jump label]))
    (hr : m.exitCode = none) {n : Nat} (hl : labelLine? lines label = some n) :
    Runs lines m (m.goto n) := by
  refine .single ?_
  simp only [step, hr, hc.instruction, gotoLabel, hl, Option.map_some]

/-- A branch is taken if two words differ. -/
theorem runs_branchNotEqual {left right : Register}
    (hc : CodeAt lines m.line (ofInstructions [.branchNotEqual left right label]))
    (hr : m.exitCode = none) {a b : BitVec 32} (ha : m.get left = .word a)
    (hb : m.get right = .word b) {n : Nat} (hl : labelLine? lines label = some n) :
    Runs lines m (m.goto (if a = b then m.line + 1 else n)) := by
  refine .single ?_
  by_cases h : a = b <;>
    simp [step, hr, hc.instruction, branch, ha, hb, h, gotoLabel, hl]

/-- A branch is taken if two words are equal. -/
theorem runs_branchEqual {left right : Register}
    (hc : CodeAt lines m.line (ofInstructions [.branchEqual left right label]))
    (hr : m.exitCode = none) {a b : BitVec 32} (ha : m.get left = .word a)
    (hb : m.get right = .word b) {n : Nat} (hl : labelLine? lines label = some n) :
    Runs lines m (m.goto (if a = b then n else m.line + 1)) := by
  refine .single ?_
  by_cases h : a = b <;>
    simp [step, hr, hc.instruction, branch, ha, hb, h, gotoLabel, hl]

/-- A branch that is not taken needs no label. -/
theorem runs_past_branchEqual {left right : Register}
    (hc : CodeAt lines m.line (ofInstructions [.branchEqual left right label]))
    (hr : m.exitCode = none) {a b : BitVec 32} (ha : m.get left = .word a)
    (hb : m.get right = .word b) (h : a ≠ b) : Runs lines m (m.goto (m.line + 1)) := by
  refine .single ?_
  simp [step, hr, hc.instruction, branch, ha, hb, h]

end Machine

end Blockwork
