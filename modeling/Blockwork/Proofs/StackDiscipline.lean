import Mathlib.Algebra.BigOperators.Group.List.Basic
import Mathlib.Algebra.Ring.Int.Defs
import Blockwork.Proofs.CheckedCalls

/-!
# The stack is left as it was

Operands and arguments wait on the stack, inside each other, inside branches and inside loops. The
depth of the stack at a line is the number of bytes that the lines before it have reserved and not
released. The code of a tree takes back what it puts there before it comes to a label, so it does
not matter on which path a line is reached.

* `stackDepth`: the depth; `Machine.step_sp`: a machine moves `$sp` by what a line counts for.
* `Line.Fits`: what a line needs of the depth before it.
* `Moves`: lines each of which fits, from one depth to another, which is never negative;
  `Expression.code_shifts`, `Statement.code_shifts`, by recursion on trees.
* `Goes`: the steps of control paths. `Moves.depth_of_goes`: they keep to the depth.
* `StackDiscipline`, `compiled_tree_keeps_stack`: all of it for the lines that were written.
-/

namespace Blockwork

open Code

/-! ## The depth of the stack -/

/-- The bytes by which an instruction makes the stack deeper. -/
def Instruction.pushed : Instruction → Int
  | .reserve bytes => bytes
  | .release bytes => -bytes
  | _ => 0

def Line.pushed : Line → Int
  | .instruction i => i.pushed
  | _ => 0

/-- The depth of the stack after lines, counted from where it was before them. -/
def stackDepth (lines : List Line) : Int :=
  (lines.map Line.pushed).sum

@[simp] theorem stackDepth_nil : stackDepth [] = 0 := rfl

@[simp] theorem stackDepth_cons (line : Line) (lines : List Line) :
    stackDepth (line :: lines) = line.pushed + stackDepth lines := by
  simp [stackDepth]

@[simp] theorem stackDepth_append (a b : List Line) :
    stackDepth (a ++ b) = stackDepth a + stackDepth b := by
  simp [stackDepth]

/-- The register that an instruction writes, other than by moving `$sp`. -/
def Instruction.written? : Instruction → Option Register
  | .loadImmediate r _ | .loadAddress r _ | .load r _ | .move r _ | .arithmetic _ r _ _
  | .quotient r => some r
  | .jumpAndLink _ => some .ra
  | _ => none

namespace Machine

variable {lines : List Line} {m m' : Machine} {a : Int}

theorem get_sp_of_set {r : Register} {c : Content} (hr : r ≠ .sp) (h : m.get .sp = .stack a) :
    (m.set r c).get .sp = .stack a := by
  rw [get_set_of_ne _ _ _ hr.symm, h]

theorem get_sp_of_moveStack {bytes : Int} (h : m.moveStack bytes = some m')
    (hsp : m.get .sp = .stack a) : m'.get .sp = .stack (a + bytes) := by
  rw [moveStack, hsp] at h
  cases h
  exact get_set_self _ _ (by decide)

theorem get_sp_of_effect {i : Instruction} (hi : i.written? ≠ some .sp)
    (h : m.effect lines i = some m') (hsp : m.get .sp = .stack a) :
    m'.get .sp = .stack (a - i.pushed) := by
  cases i <;> simp only [Instruction.written?, ne_eq, Option.some.injEq] at hi <;>
    simp only [Instruction.pushed, Int.sub_zero, Int.sub_neg]
  case reserve => exact get_sp_of_moveStack h hsp
  case release => exact get_sp_of_moveStack h hsp
  case load =>
    obtain ⟨c, -, rfl⟩ := Option.map_eq_some_iff.1 h
    exact get_sp_of_set hi hsp
  case store target =>
    cases target <;> obtain ⟨_, -, rfl⟩ := Option.map_eq_some_iff.1 h <;> exact hsp
  case arithmetic =>
    simp only [effect] at h
    split at h <;> cases h
    exact get_sp_of_set hi hsp
  case divide =>
    simp only [effect] at h
    split at h
    · split at h <;> cases h
      exact hsp
    · cases h
  case systemCall =>
    simp only [effect, printCall] at h
    split at h
    · cases h; exact hsp
    · obtain ⟨_, -, rfl⟩ := Option.map_eq_some_iff.1 h
      exact hsp
    · cases h
  case branchEqual | branchNotEqual | jump | jumpAndLink | jumpRegister => cases h
  all_goals cases h; exact get_sp_of_set hi hsp

theorem get_sp_of_gotoLabel {label : Label} (h : m.gotoLabel lines label = some m') :
    m'.get .sp = m.get .sp := by
  obtain ⟨_, -, rfl⟩ := Option.map_eq_some_iff.1 h
  rfl

theorem get_sp_of_branch {equal : Bool} {left right : Register} {label : Label}
    (h : m.branch lines equal left right label = some m') : m'.get .sp = m.get .sp := by
  unfold branch at h
  split at h
  · split at h
    · exact get_sp_of_gotoLabel h
    · cases h; rfl
  · cases h

/-- One step of a machine moves `$sp` by what the line counts for, if the line does not write to
`$sp` in another way. -/
theorem step_sp {line : Line} (hline : lines[m.line]? = some line)
    (hi : ∀ i, line = .instruction i → i.written? ≠ some .sp) (h : m.step lines = some m')
    (hsp : m.get .sp = .stack a) : m'.get .sp = .stack (a - line.pushed) := by
  have hr : m.exitCode = none := by
    cases hx : m.exitCode with
    | none => rfl
    | some code => simp [step, hx] at h
  cases line with
  | dataSection | textSection | global | string | word => simp [step, hr, hline] at h
  | define label =>
    rw [step_of_define hr hline] at h
    cases h
    simpa [Line.pushed] using hsp
  | instruction i =>
    have heffect {m''} (he : m.effect lines i = some m'') :
        (m''.goto (m.line + 1)).get .sp = .stack (a - i.pushed) := by
      rw [get_goto, get_sp_of_effect (hi i rfl) he hsp]
    cases i <;> simp only [step, hr, hline] at h <;> rw [Line.pushed]
    case branchEqual | branchNotEqual => simpa [get_sp_of_branch h, Instruction.pushed] using hsp
    case jump => simpa [get_sp_of_gotoLabel h, Instruction.pushed] using hsp
    case jumpAndLink => simpa [get_sp_of_gotoLabel h, Instruction.pushed] using hsp
    case jumpRegister =>
      split at h <;> cases h
      simpa [Instruction.pushed] using hsp
    case systemCall =>
      split at h
      · cases h
        exact hsp.trans (by simp [Instruction.pushed])
      · obtain ⟨m'', he, rfl⟩ := Option.map_eq_some_iff.1 h
        exact heffect he
    all_goals
      obtain ⟨m'', he, rfl⟩ := Option.map_eq_some_iff.1 h
      exact heffect he

end Machine

/-! ## What lines need -/

/-- The label at which a line may go on. -/
def Line.target? : Line → Option Label
  | .instruction (.branchEqual _ _ label) | .instruction (.branchNotEqual _ _ label)
  | .instruction (.jump label) => some label
  | _ => none

/-- Whether a line may go on at the next one. A call comes back to the line that follows it. -/
def Line.falls : Line → Bool
  | .instruction (.jump _) | .instruction (.jumpRegister _) => false
  | _ => true

/-- A line that the code of a tree may have where the stack has a depth. -/
structure Line.Fits (env : Environment) (depth : Int) (line : Line) : Prop where
  /-- The left operand is on the stack. -/
  operand : line = .instruction (.load .t0 (.relative 0 .sp)) → (wordSize : Int) ≤ depth
  /-- The arguments of a call are on the stack. -/
  arguments : ∀ label, line = .instruction (.jumpAndLink label) →
    ∃ q, env.getProcedure q.name = .ok q ∧ label = .procedure q.name ∧
      (wordSize * q.parameters.length : Int) ≤ depth
  /-- There is nothing on the stack where paths meet. -/
  label : ∀ label, line = .define label → (∃ n, label = .local n) ∧ depth = 0
  /-- There is nothing on the stack where paths part, unless the program ends there. -/
  target : ∀ label, line.target? = some label →
    label = .divisionGuard ∨ (∃ n, label = .local n) ∧ depth = 0
  /-- Nothing but a line that counts moves `$sp`. -/
  register : ∀ i, line = .instruction i → i.written? ≠ some .sp

/-- Lines that fit, from one depth to another. -/
inductive Moves (env : Environment) : Int → List Line → Int → Prop where
  | nil {depth : Int} (h : 0 ≤ depth) : Moves env depth [] depth
  | cons {depth last : Int} {line : Line} {lines : List Line} (h : 0 ≤ depth)
    (fits : line.Fits env depth) (rest : Moves env (depth + line.pushed) lines last) :
    Moves env depth (line :: lines) last

namespace Moves

variable {env : Environment} {depth middle last : Int} {a b lines : List Line}

theorem append (ha : Moves env depth a middle) (hb : Moves env middle b last) :
    Moves env depth (a ++ b) last := by
  induction ha with
  | nil h => exact hb
  | cons h fits rest ih => exact .cons h fits (ih hb)

theorem single {line : Line} (hd : 0 ≤ depth) (hl : 0 ≤ last) (fits : line.Fits env depth)
    (hpushed : line.pushed = last - depth) : Moves env depth [line] last := by
  have hlast : depth + line.pushed = last := by omega
  refine .cons hd fits ?_
  rw [hlast]
  exact .nil hl

theorem last_eq (h : Moves env depth lines last) : last = depth + stackDepth lines := by
  induction h with
  | nil h => simp
  | cons h fits rest ih => rw [ih, stackDepth_cons, Int.add_assoc]

theorem nonneg (h : Moves env depth lines last) {before : List Line} (hb : before <+: lines) :
    0 ≤ depth + stackDepth before := by
  induction h generalizing before with
  | nil h =>
    rw [List.prefix_nil.1 hb]
    simpa using h
  | cons h fits rest ih =>
    obtain rfl | ⟨before, rfl, hb⟩ := List.prefix_cons_iff.1 hb
    · simpa using h
    · rw [stackDepth_cons, ← Int.add_assoc]
      exact ih (List.cons_prefix_cons.1 hb).2

theorem fits (h : Moves env depth lines last) {before : List Line} {line : Line}
    (hb : before ++ [line] <+: lines) : line.Fits env (depth + stackDepth before) := by
  induction h generalizing before with
  | nil h => simp at hb
  | cons h fits rest ih =>
    cases before with
    | nil =>
      obtain rfl : line = _ := by simpa using hb
      simpa using fits
    | cons l before =>
      obtain ⟨rfl, hbefore⟩ := List.cons_prefix_cons.1 hb
      rw [stackDepth_cons, ← Int.add_assoc]
      exact ih hbefore

end Moves

/-! ## The code of trees -/

/-- A piece of code without an obstacle has lines that fit, from one depth to another. -/
def Code.Shifts (env : Environment) (depth : Int) (c : Code) (last : Int) : Prop :=
  c.obstacle = none → Moves env depth c.lines last

variable {env : Environment} {scope : Scope} {depth middle last : Int} {a b : Code}

theorem Code.Shifts.append (ha : a.Shifts env depth middle)
    (hb : a.obstacle = none → b.Shifts env middle last) : (a ++ b).Shifts env depth last := by
  intro ho
  obtain ⟨hoa, hob⟩ := obstacle_append_eq_none.1 ho
  rw [lines_append hoa]
  exact (ha hoa).append (hb hoa hob)

theorem shifts_empty (h : 0 ≤ depth) : empty.Shifts env depth depth := fun _ => .nil h

theorem shifts_mint : Code.mint.Shifts env 0 0 := fun _ => .nil (Int.le_refl 0)

/-- An instruction that needs nothing on the stack and goes on to the next line, if the program does
not end there. -/
def Instruction.plain : Instruction → Bool
  | .loadImmediate r _ | .loadAddress r _ | .move r _ | .arithmetic _ r _ _ | .quotient r => r ≠ .sp
  | .load r _ => r = .v0
  | .store .. | .reserve _ | .release _ | .divide .. | .systemCall => true
  | .branchEqual _ _ label => label = .divisionGuard
  | _ => false

theorem Instruction.fits_of_plain {i : Instruction} (h : i.plain) :
    (Line.instruction i).Fits env depth where
  operand hi := by cases hi; cases h
  arguments label hi := by cases hi; cases h
  label label hi := nomatch hi
  target label hi := by
    cases i <;> simp only [plain] at h <;> cases hi
    · exact .inl (of_decide_eq_true h)
    all_goals cases h
  register j hj := by
    cases hj
    cases i <;> simp_all [plain, written?]

theorem shifts_instruction {i : Instruction} (hd : 0 ≤ depth) (hl : 0 ≤ last)
    (hi : (Line.instruction i).Fits env depth) (hpushed : i.pushed = last - depth) :
    (ofInstructions [i]).Shifts env depth last :=
  fun _ => .single hd hl hi hpushed

theorem shifts_plain {is : List Instruction} (h : ∀ i ∈ is, i.plain ∧ i.pushed = 0)
    (hd : 0 ≤ depth) : (ofInstructions is).Shifts env depth depth := by
  induction is with
  | nil => exact shifts_empty hd
  | cons i is ih =>
    obtain ⟨hi, his⟩ := List.forall_mem_cons.1 h
    have hfirst : (ofInstructions [i]).Shifts env depth depth :=
      shifts_instruction hd hd (Instruction.fits_of_plain hi.1)
        (hi.2.trans (Int.sub_self depth).symm)
    rw [← List.singleton_append, ofInstructions_append]
    exact hfirst.append fun _ => ih his

theorem shifts_reserve (bytes : Nat) (h : 0 ≤ depth) :
    (ofInstructions [.reserve bytes]).Shifts env depth (depth + bytes) :=
  shifts_instruction h (by omega) (Instruction.fits_of_plain rfl) (by simp [Instruction.pushed])

theorem shifts_release (bytes : Nat) (h : 0 ≤ depth) :
    (ofInstructions [.release bytes]).Shifts env (depth + bytes) depth :=
  shifts_instruction (by omega) h (Instruction.fits_of_plain rfl) (by simp [Instruction.pushed])

theorem shifts_push (h : 0 ≤ depth) : push.Shifts env depth (depth + wordSize) := by
  have hstore : (ofInstructions [.store .v0 (.relative 0 .sp)]).Shifts env (depth + wordSize)
      (depth + wordSize) :=
    shifts_plain (by simp [Instruction.plain, Instruction.pushed]) (by omega)
  exact (shifts_reserve wordSize h).append fun _ => hstore

theorem shifts_pop (h : 0 ≤ depth) : pop.Shifts env (depth + wordSize) depth := by
  have hload : (ofInstructions [.load .t0 (.relative 0 .sp)]).Shifts env (depth + wordSize)
      (depth + wordSize) :=
    shifts_instruction (by omega) (by omega)
      ⟨fun _ => by omega, nofun, nofun, nofun, by rintro _ ⟨⟩; exact nofun⟩
      (by simp [Instruction.pushed])
  exact hload.append fun _ => shifts_release wordSize h

theorem shifts_define (number : Nat) : (Code.define number).Shifts env 0 0 :=
  fun _ => .single (Int.le_refl 0) (Int.le_refl 0)
    ⟨nofun, nofun, by rintro _ ⟨⟩; exact ⟨⟨number, rfl⟩, rfl⟩, nofun, fun _ h => nomatch h⟩ rfl

theorem shifts_jump (number : Nat) : (ofInstructions [.jump (.local number)]).Shifts env 0 0 :=
  shifts_instruction (Int.le_refl 0) (Int.le_refl 0)
    ⟨nofun, nofun, nofun, by rintro _ ⟨⟩; exact .inr ⟨⟨number, rfl⟩, rfl⟩,
      by rintro _ ⟨⟩; exact nofun⟩ rfl

theorem Operator.plain_instructions (op : Operator) :
    ∀ i ∈ op.instructions, i.plain ∧ i.pushed = 0 := by
  cases op <;> decide

theorem Scope.shifts_checkCall (name : String) (count : Nat) (h : 0 ≤ depth) :
    (scope.checkCall name count).Shifts env depth depth := by
  have hlines : (scope.checkCall name count).lines = [] := by
    unfold Scope.checkCall
    split
    · rfl
    · split <;> rfl
  intro _
  rw [hlines]
  exact .nil h

/-- A call that has been checked finds its arguments. -/
theorem shifts_jumpAndLink {name : String} {count : Nat}
    (hcheck : (scope.checkCall name count).obstacle = none) (h : 0 ≤ depth) :
    (ofInstructions [.jumpAndLink (.procedure name)]).Shifts scope.environment
      (depth + (wordSize * count : Nat)) (depth + (wordSize * count : Nat)) := by
  rw [Scope.obstacle_checkCall] at hcheck
  obtain ⟨q, hq, rfl⟩ := Environment.allows_iff.2 hcheck
  obtain ⟨-, rfl⟩ := Environment.getProcedure_eq_ok hq
  refine shifts_instruction (by omega) (by omega) ⟨nofun, ?_, nofun, nofun, ?_⟩
    (Int.sub_self _).symm
  · rintro _ ⟨⟩
    exact ⟨q, hq, rfl, by omega⟩
  · rintro _ ⟨⟩
    exact nofun

mutual

/-- The code of an expression leaves the stack as it was, whatever is on it. -/
theorem Expression.code_shifts (scope : Scope) {depth : Int} (h : 0 ≤ depth) : (e : Expression) →
    (e.code scope).Shifts scope.environment depth depth
  | .number _ => shifts_plain (by simp [Instruction.plain, Instruction.pushed]) h
  | .variable _ => shifts_plain (by simp [Instruction.plain, Instruction.pushed]) h
  | .binary left op right => by
    have hd : 0 ≤ depth + wordSize := by omega
    exact ((((left.code_shifts scope h).append fun _ => shifts_push h).append fun _ =>
      right.code_shifts scope hd).append fun _ => shifts_pop h).append fun _ =>
        shifts_plain op.plain_instructions h
  | .call name arguments => by
    refine (((Scope.shifts_checkCall name _ h).append fun _ =>
      Expression.argumentCode_shifts scope h arguments).append fun ho =>
        shifts_jumpAndLink (obstacle_append_eq_none.1 ho).1 h).append fun _ => ?_
    cases arguments with
    | nil => simpa using shifts_empty h
    | cons e es => exact shifts_release _ h

/-- Each argument stays on the stack. -/
theorem Expression.argumentCode_shifts (scope : Scope) {depth : Int} (h : 0 ≤ depth) :
    (es : List Expression) → (Expression.argumentCode scope es).Shifts scope.environment depth
      (depth + (wordSize * es.length : Nat))
  | [] => by simpa [Expression.argumentCode] using shifts_empty h
  | e :: es => by
    have hd : 0 ≤ depth + wordSize := by omega
    have hes := Expression.argumentCode_shifts scope hd es
    have hlast : depth + wordSize + (wordSize * es.length : Nat) =
        depth + (wordSize * (e :: es).length : Nat) := by
      rw [List.length_cons, Nat.mul_succ]
      omega
    rw [hlast] at hes
    exact ((e.code_shifts scope h).append fun _ => shifts_push h).append fun _ => hes

end

theorem shifts_branchUnless (scope : Scope) (condition : Expression) (target : Nat) :
    (branchUnless scope condition target).Shifts scope.environment 0 0 := by
  have hd := Int.le_refl 0
  have hset : (ofInstructions [.loadImmediate .t0 1]).Shifts scope.environment 0 0 :=
    shifts_plain (by decide) hd
  have hbranch : (ofInstructions [.branchNotEqual .v0 .t0 (.local target)]).Shifts
      scope.environment 0 0 :=
    shifts_instruction hd hd
      ⟨nofun, nofun, nofun, by rintro _ ⟨⟩; exact .inr ⟨⟨target, rfl⟩, rfl⟩,
        by rintro _ ⟨⟩; exact nofun⟩ rfl
  exact (condition.code_shifts scope hd).append fun _ => hset.append fun _ => hbranch

mutual

/-- The code of a statement starts and ends with nothing on the stack. -/
theorem Statement.code_shifts (scope : Scope) (first : Nat) : (s : Statement) →
    (s.code scope first).Shifts scope.environment 0 0
  | .assign _ value =>
    (value.code_shifts scope (Int.le_refl 0)).append fun _ =>
      shifts_plain (by simp [Instruction.plain, Instruction.pushed]) (Int.le_refl 0)
  | .block body => Statement.listCode_shifts scope first body
  | .branch condition onTrue [] =>
    ((shifts_mint.append fun _ => shifts_branchUnless scope condition first).append
      fun _ => Statement.listCode_shifts scope (first + 1) onTrue).append
        fun _ => shifts_define first
  | .branch condition onTrue (s :: ss) =>
    ((shifts_mint.append fun _ => shifts_branchUnless scope condition first).append
      fun _ => Statement.listCode_shifts scope (first + 1) onTrue).append fun _ =>
        (((shifts_mint.append fun _ => shifts_jump _).append
          fun _ => shifts_define first).append
            fun _ => Statement.listCode_shifts scope _ (s :: ss)).append fun _ => shifts_define _
  | .loop condition body =>
    (((((shifts_mint.append fun _ => shifts_mint).append
      fun _ => shifts_define first).append
        fun _ => shifts_branchUnless scope condition (first + 1)).append
          fun _ => Statement.listCode_shifts scope (first + 2) body).append
            fun _ => shifts_jump first).append fun _ => shifts_define (first + 1)
  | .read _ => nofun
  | .display value =>
    (value.code_shifts scope (Int.le_refl 0)).append fun _ =>
      shifts_plain (by decide) (Int.le_refl 0)
  | .return value => value.code_shifts scope (Int.le_refl 0)
  | .procedure .. => shifts_empty (Int.le_refl 0)

theorem Statement.listCode_shifts (scope : Scope) (first : Nat) : (ss : List Statement) →
    (Statement.listCode scope first ss).Shifts scope.environment 0 0
  | [] => shifts_empty (Int.le_refl 0)
  | s :: ss =>
    (s.code_shifts scope first).append fun _ =>
      Statement.listCode_shifts scope (first + s.labels) ss

end

/-! ## Paths -/

/-- A step of a control path: from a line and a depth to a line and a depth. A call comes back with
the stack as it was. -/
inductive Goes (lines : List Line) : Nat × Int → Nat × Int → Prop where
  | next {n : Nat} {depth : Int} {line : Line} (h : lines[n]? = some line) (hf : line.falls) :
    Goes lines (n, depth) (n + 1, depth + line.pushed)
  | target {n m : Nat} {depth : Int} {line : Line} {label : Label} (h : lines[n]? = some line)
    (ht : line.target? = some label) (hl : lines[m]? = some (.define label)) :
    Goes lines (n, depth) (m, depth)

theorem Moves.fits_at {lines : List Line} (h : Moves env 0 lines last) {n : Nat} {line : Line}
    (hn : lines[n]? = some line) : line.Fits env (stackDepth (lines.take n)) := by
  have hprefix : lines.take n ++ [line] <+: lines := by
    have htake := List.take_prefix (n + 1) lines
    rwa [List.take_add_one, hn] at htake
  simpa using h.fits hprefix

/-- Each control path comes to a line with the depth of that line. -/
theorem Moves.depth_of_goes {lines : List Line} (h : Moves env 0 lines last) {p : Nat × Int}
    (hp : Relation.ReflTransGen (Goes lines) (0, 0) p) : p.2 = stackDepth (lines.take p.1) := by
  induction hp with
  | refl => simp
  | tail _ hgoes ih =>
    cases hgoes with
    | @next n depth line hn hf =>
      rw [List.take_add_one, hn, stackDepth_append, ← ih]
      simp
    | @target n m depth line label hn ht hl =>
      obtain ⟨⟨number, hlabel⟩, hdefine⟩ := (h.fits_at hl).label label rfl
      obtain hguard | ⟨-, hjump⟩ := (h.fits_at hn).target label ht
      · -- The guard is not among the lines, so no path within them goes there.
        rw [hguard] at hlabel
        cases hlabel
      · exact ih.trans (hjump.trans hdefine.symm)

/-! ## What was written -/

/-- The code of an expression, a statement or a block, whose labels are numbered from the first. -/
inductive CodeOfTree (scope : Scope) (first : Nat) : Code → Prop where
  | expression (e : Expression) : CodeOfTree scope first (e.code scope)
  | statement (s : Statement) : CodeOfTree scope first (s.code scope first)
  | block (ss : List Statement) : CodeOfTree scope first (Statement.listCode scope first ss)

/-- Lines that take back from the stack what they put there. -/
structure StackDiscipline (env : Environment) (lines : List Line) : Prop where
  nonneg : ∀ before, before <+: lines → 0 ≤ stackDepth before
  settled : stackDepth lines = 0
  fits : ∀ before line, before ++ [line] <+: lines → line.Fits env (stackDepth before)
  /-- A machine at one of the lines moves `$sp` by what the line counts for. -/
  moves : ∀ line ∈ lines, ∀ program (m m' : Machine) a, program[m.line]? = some line →
    m.step program = some m' → m.get .sp = .stack a → m'.get .sp = .stack (a - line.pushed)
  /-- The depth at a line does not depend on the path to it. -/
  paths : ∀ n depth, Relation.ReflTransGen (Goes lines) (0, 0) (n, depth) →
    depth = stackDepth (lines.take n)
  leaves : ∀ depth, Relation.ReflTransGen (Goes lines) (0, 0) (lines.length, depth) → depth = 0

theorem Moves.stackDiscipline {lines : List Line} (h : Moves env 0 lines 0) :
    StackDiscipline env lines where
  nonneg before hb := by simpa using h.nonneg hb
  settled := by simpa using h.last_eq.symm
  fits before line hb := by simpa using h.fits hb
  moves line hline program m m' a hm hstep hsp := by
    obtain ⟨n, hn⟩ := List.mem_iff_getElem?.1 hline
    exact Machine.step_sp hm (h.fits_at hn).register hstep hsp
  paths n depth hp := h.depth_of_goes hp
  leaves depth hp := by
    have hdepth := h.depth_of_goes hp
    have hlast := h.last_eq
    rw [List.take_length] at hdepth
    omega

/-- If the code of an expression, a statement or a block could be written, then what was written
takes back from the stack what it puts there, on each path through it. -/
theorem compiled_tree_keeps_stack {scope : Scope} {e e' : Emitter} {c : Code}
    (hc : CodeOfTree scope e.nextLabel c) (h : e.assemble c = (.ok (), e')) :
    e'.sink.written = e.sink.written ++ (listing c.lines).toUTF8 ∧
      StackDiscipline scope.environment c.lines := by
  obtain ⟨ho, hw⟩ := Emitter.assemble_eq_ok h
  have hmoves : Moves scope.environment 0 c.lines 0 := by
    cases hc with
    | expression e => exact e.code_shifts scope (Int.le_refl 0) ho
    | statement s => exact s.code_shifts scope _ ho
    | block ss => exact Statement.listCode_shifts scope _ ss ho
  exact ⟨hw, hmoves.stackDiscipline⟩

/-- A loop with calls and operands inside each other, in its condition and in a branch of its
body. -/
def nestedLoop : Statement :=
  let quotient := .binary (.variable "x") .divide (.call "half" [.variable "x"])
  .loop (.call "less" [.number 1, .binary (.number 2) .multiply quotient])
    [.branch (.binary quotient .less (.binary (.number 3) .add quotient))
      [.display (.call "less" [quotient, .number 4])] [.assign "x" quotient]]

def nestedScope : Scope where
  environment := .ofTree [.procedure "half" ["n"] [], .procedure "less" ["m", "n"] []]

/-- In the condition, the stack is four words deep where the argument of the inner call is. -/
theorem compiled_tree_keeps_stack_nestedLoop : ∃ e,
    CodeOfTree nestedScope 1 (nestedLoop.code nestedScope 1) ∧
    ({} : Emitter).assemble (nestedLoop.code nestedScope 1) = (.ok (), e) ∧
    (∃ before, before ++ [.instruction (.jumpAndLink (.procedure "half"))] <+:
      (nestedLoop.code nestedScope 1).lines ∧ stackDepth before = 16) ∧
    e.sink.written = (listing (nestedLoop.code nestedScope 1).lines).toUTF8 ∧
    StackDiscipline nestedScope.environment (nestedLoop.code nestedScope 1).lines := by
  have hc : CodeOfTree nestedScope 1 (nestedLoop.code nestedScope 1) := .statement nestedLoop
  obtain ⟨e, he⟩ : ∃ e, ({} : Emitter).assemble (nestedLoop.code nestedScope 1) = (.ok (), e) :=
    Emitter.assemble_of_unlimited rfl (by decide)
  obtain ⟨hw, hstack⟩ := compiled_tree_keeps_stack hc he
  refine ⟨e, hc, he, ⟨(nestedLoop.code nestedScope 1).lines.take 13, ?_, ?_⟩, ?_, hstack⟩
  · decide
  · decide
  · rw [hw]
    exact ByteArray.empty_append

end Blockwork
