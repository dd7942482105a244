import Blockwork.Proofs.CodeAt
import Blockwork.Proofs.ParserSound

/-!
# Labels of a program

No label of a program's code is defined twice, so each of them stands for one place: the numbers of
the labels in a statement lie in an interval, which the intervals of the other statements do not
meet, and procedures have different names.

* `Defines`: the labels of a piece of code differ and are of a given kind.
* `Statement.code_defines`, `Program.code_defines`: by recursion on trees.
* `Linked`: the places of a program's parts among its lines; `Program.linked`.
-/

namespace Blockwork

open Code

/-- The labels of the code that lines define, in order. -/
def definitions (lines : List Line) : List Label :=
  lines.filterMap fun
    | .define label => some label
    | _ => none

theorem definitions_lines_append (as bs : List Line) :
    definitions (as ++ bs) = definitions as ++ definitions bs :=
  List.filterMap_append

theorem labelLine?_of_nodup {lines : List Line} (h : (definitions lines).Nodup) {n : Nat}
    {label : Label} (hl : lines[n]? = some (.define label)) : labelLine? lines label = some n := by
  induction lines generalizing n with
  | nil => simp at hl
  | cons line lines ih =>
    cases n with
    | zero =>
      obtain rfl : line = .define label := by simpa using hl
      simp [labelLine?, List.findIdx?_cons]
    | succ n =>
      rw [List.getElem?_cons_succ] at hl
      have hmem : label ∈ definitions lines :=
        List.mem_filterMap.2 ⟨_, List.mem_of_getElem? hl, rfl⟩
      have hne : line ≠ .define label := by
        rintro rfl
        exact (List.nodup_cons.1 h).1 hmem
      have htail : (definitions lines).Nodup := h.sublist ((List.sublist_cons_self _ _).filterMap _)
      have hfind := ih htail hl
      simp only [labelLine?] at hfind ⊢
      simp [List.findIdx?_cons, hne, hfind]

/-! ## The labels of a piece -/

/-- The labels that a piece of code defines differ from each other, and all of them are in `S`. -/
structure Defines (S : Label → Prop) (c : Code) : Prop where
  nodup : (definitions c.lines).Nodup
  all : ∀ label ∈ definitions c.lines, S label

namespace Defines

variable {S T U : Label → Prop} {a b : Code}

theorem mono (h : Defines S a) (hT : ∀ label, S label → T label) : Defines T a :=
  ⟨h.nodup, fun label hl => hT label (h.all label hl)⟩

/-- Pieces with different labels stand one after the other. -/
theorem append (ha : Defines S a) (hb : Defines T b) (hd : ∀ label, S label → ¬T label)
    (hS : ∀ label, S label → U label) (hT : ∀ label, T label → U label) : Defines U (a ++ b) := by
  by_cases ho : a.obstacle = none
  · have hl : definitions (a ++ b).lines = definitions a.lines ++ definitions b.lines := by
      rw [lines_append ho, definitions_lines_append]
    refine ⟨?_, fun label => ?_⟩
    · rw [hl, List.nodup_append]
      refine ⟨ha.nodup, hb.nodup, ?_⟩
      rintro x hx y hy rfl
      exact hd x (ha.all x hx) (hb.all x hy)
    · rw [hl, List.mem_append]
      rintro (h | h)
      · exact hS label (ha.all label h)
      · exact hT label (hb.all label h)
  · obtain ⟨o, ho⟩ := Option.ne_none_iff_exists'.1 ho
    have hab : a ++ b = a := by rw [append_def, ho]
    rw [hab]
    exact ha.mono hS

/-- A piece without labels. -/
theorem none (h : definitions a.lines = []) : Defines S a :=
  ⟨by rw [h]; exact List.nodup_nil, by simp [h]⟩

/-- A piece without labels in front. -/
theorem after (ha : definitions a.lines = []) (hb : Defines S b) : Defines S (a ++ b) :=
  (Defines.none (S := fun _ => False) ha).append hb (fun _ h => h.elim) (fun _ h => h.elim)
    fun _ h => h

/-- A piece without labels behind. -/
theorem before (ha : Defines S a) (hb : definitions b.lines = []) : Defines S (a ++ b) :=
  ha.append (Defines.none (S := fun _ => False) hb) (fun _ _ h => h) (fun _ h => h)
    fun _ h => h.elim

theorem single (label : Label) (h : S label) : Defines S (ofLines [.define label]) := by
  have hl : definitions (ofLines [.define label]).lines = [label] := by
    rw [lines_ofLines]
    rfl
  refine ⟨?_, ?_⟩
  · rw [hl]
    simp
  · rw [hl]
    simpa using h

end Defines

theorem definitions_append {a b : Code} (ha : definitions a.lines = [])
    (hb : definitions b.lines = []) : definitions (a ++ b).lines = [] := by
  have h : Defines (fun _ => False) (a ++ b) := .after ha (.none hb)
  exact List.eq_nil_iff_forall_not_mem.2 fun label hl => h.all label hl

theorem definitions_ofInstructions (is : List Instruction) :
    definitions (ofInstructions is).lines = [] := by
  rw [lines_ofInstructions]
  induction is with
  | nil => rfl
  | cons i is ih => exact ih

theorem definitions_checkCall (scope : Scope) (name : String) (count : Nat) :
    definitions (scope.checkCall name count).lines = [] := by
  unfold Scope.checkCall
  split
  · rfl
  · split <;> rfl

/-! ## Statements -/

mutual

theorem Expression.definitions_code (scope : Scope) :
    (e : Expression) → definitions (e.code scope).lines = []
  | .number _ => definitions_ofInstructions _
  | .variable _ => definitions_ofInstructions _
  | .binary left op right =>
    definitions_append (definitions_append (definitions_append (definitions_append
      (left.definitions_code scope) (definitions_ofInstructions _)) (right.definitions_code scope))
      (definitions_ofInstructions _)) (definitions_ofInstructions _)
  | .call name arguments => by
    refine definitions_append (definitions_append (definitions_append
      (definitions_checkCall scope name _) (Expression.definitions_argumentCode scope arguments))
      (definitions_ofInstructions _)) ?_
    split
    · rfl
    · exact definitions_ofInstructions _

theorem Expression.definitions_argumentCode (scope : Scope) :
    (es : List Expression) → definitions (Expression.argumentCode scope es).lines = []
  | [] => rfl
  | e :: es => definitions_append (definitions_append (e.definitions_code scope)
      (definitions_ofInstructions _)) (Expression.definitions_argumentCode scope es)

end

/-- The labels whose numbers are in `S`. -/
def Numbered (S : Nat → Prop) (label : Label) : Prop :=
  ∃ n, label = .local n ∧ S n

theorem Defines.numbered {S T U : Nat → Prop} {a b : Code} (ha : Defines (Numbered S) a)
    (hb : Defines (Numbered T) b) (hd : ∀ n, S n → T n → False) (hS : ∀ n, S n → U n)
    (hT : ∀ n, T n → U n) : Defines (Numbered U) (a ++ b) := by
  refine ha.append hb ?_ ?_ ?_
  · rintro _ ⟨n, rfl, hn⟩ ⟨n', he, hn'⟩
    cases he
    exact hd n hn hn'
  · rintro _ ⟨n, rfl, hn⟩
    exact ⟨n, rfl, hS n hn⟩
  · rintro _ ⟨n, rfl, hn⟩
    exact ⟨n, rfl, hT n hn⟩

theorem defines_define (n : Nat) : Defines (Numbered (· = n)) (define n) :=
  .single _ ⟨n, rfl, rfl⟩

theorem definitions_branchUnless (scope : Scope) (condition : Expression) (target : Nat) :
    definitions (branchUnless scope condition target).lines = [] :=
  definitions_append (condition.definitions_code scope) (definitions_ofInstructions _)

/-- The numbers from one up to another. -/
def Between (first next n : Nat) : Prop := first ≤ n ∧ n < next

mutual

theorem Statement.code_defines (scope : Scope) (first : Nat) : (s : Statement) →
    Defines (Numbered (Between first (first + s.labels))) (s.code scope first)
  | .assign _ value => .none (definitions_append (value.definitions_code scope)
      (definitions_ofInstructions _))
  | .block body => Statement.listCode_defines scope first body
  | .branch condition onTrue onFalse => by
    have htrue := Statement.listCode_defines scope (first + 1) onTrue
    have hleft := Defines.after (definitions_append (a := Code.mint) rfl
      (definitions_branchUnless scope condition first)) htrue
    simp only [Statement.code, Statement.labels]
    cases onFalse with
    | nil =>
      refine hleft.numbered (defines_define first) ?_ ?_ ?_ <;> intro n <;>
        simp only [Between, Statement.listLabels, List.isEmpty_nil, if_true] <;> omega
    | cons s ss =>
      have hfalse := Statement.listCode_defines scope
        (first + 1 + Statement.listLabels onTrue + 1) (s :: ss)
      have hjump : Defines (Numbered (· = first)) (Code.mint ++ ofInstructions
          [.jump (.local (first + 1 + Statement.listLabels onTrue))] ++ define first) :=
        .after (definitions_append rfl (definitions_ofInstructions _)) (defines_define first)
      have hright := (hjump.numbered hfalse (U := fun n => n = first ∨
        Between (first + 1 + Statement.listLabels onTrue + 1)
          (first + 1 + Statement.listLabels onTrue + 1 + Statement.listLabels (s :: ss)) n)
        (by simp only [Between]; omega) (fun n => .inl) (fun n => .inr)).numbered
        (defines_define (first + 1 + Statement.listLabels onTrue))
        (U := fun n => n = first ∨ Between (first + 1 + Statement.listLabels onTrue)
          (first + 1 + Statement.listLabels onTrue + 1 + Statement.listLabels (s :: ss)) n)
        (by simp only [Between]; omega) (by simp only [Between]; omega)
        (by simp only [Between]; omega)
      refine hleft.numbered hright ?_ ?_ ?_ <;> intro n <;>
        simp only [Between, List.isEmpty_cons] <;> simp <;> omega
  | .loop condition body => by
    have hbody := Statement.listCode_defines scope (first + 2) body
    have hstart : Defines (Numbered (· = first)) (Code.mint ++ Code.mint ++ define first ++
        branchUnless scope condition (first + 1)) :=
      .before (.after rfl (defines_define first)) (definitions_branchUnless ..)
    have hloop := (hstart.numbered hbody (U := fun n => n = first ∨
      Between (first + 2) (first + 2 + Statement.listLabels body) n)
      (by simp only [Between]; omega) (fun n => .inl) (fun n => .inr)).before
      (definitions_ofInstructions [.jump (.local first)])
    refine hloop.numbered (defines_define (first + 1)) ?_ ?_ ?_ <;> intro n <;>
      simp only [Between, Statement.labels] <;> omega
  | .read _ => .none rfl
  | .display value => .none (definitions_append (value.definitions_code scope)
      (definitions_ofInstructions _))
  | .return value => .none (value.definitions_code scope)
  | .procedure .. => .none rfl

theorem Statement.listCode_defines (scope : Scope) (first : Nat) : (ss : List Statement) →
    Defines (Numbered (Between first (first + Statement.listLabels ss)))
      (Statement.listCode scope first ss)
  | [] => .none rfl
  | s :: ss => by
    refine (s.code_defines scope first).numbered
      (Statement.listCode_defines scope (first + s.labels) ss) ?_ ?_ ?_ <;> intro n <;>
      simp only [Between, Statement.listLabels] <;> omega

end

/-! ## Programs -/

theorem Procedure.code_defines (environment : Environment) (topLevel : List String) (first : Nat)
    (q : Procedure) : Defines
      (fun label => label = .procedure q.name ∨
        Numbered (Between first (first + Statement.listLabels q.body)) label)
      (q.code environment topLevel first) := by
  have hname : Defines (· = .procedure q.name) (ofLines [.define (.procedure q.name)]) :=
    .single _ rfl
  refine .before (.append (.before (.before hname ?_) ?_)
    (Statement.listCode_defines _ first q.body) ?_ ?_ ?_) (definitions_ofInstructions _)
  · exact definitions_ofInstructions _
  · exact definitions_ofInstructions _
  · rintro _ rfl ⟨n, hn, -⟩
    cases hn
  · exact fun label => .inl
  · exact fun label => .inr

/-- The number of labels that routines mint. -/
def routineLabels : List Procedure → Nat
  | [] => 0
  | q :: qs => Statement.listLabels q.body + routineLabels qs

theorem routines_define (environment : Environment) (topLevel : List String) (first : Nat)
    (qs : List Procedure) (hn : (qs.map Procedure.name).Nodup) : Defines
      (fun label => (∃ q ∈ qs, label = .procedure q.name) ∨
        Numbered (Between first (first + routineLabels qs)) label)
      (routines environment topLevel first qs) := by
  induction qs generalizing first with
  | nil => exact .none rfl
  | cons q qs ih =>
    obtain ⟨hq, hn⟩ := List.nodup_cons.1 hn
    rw [routineLabels]
    refine (q.code_defines environment topLevel first).append
      (ih (first + Statement.listLabels q.body) hn) ?_ ?_ ?_
    · rintro _ (rfl | ⟨n, rfl, hn⟩) (⟨q', hq', he⟩ | ⟨n', he, hn'⟩)
      · exact hq (List.mem_map.2 ⟨q', hq', (Label.procedure.inj he).symm⟩)
      · cases he
      · cases he
      · cases he
        have := hn.2
        have := hn'.1
        omega
    · rintro label (rfl | ⟨n, rfl, hn⟩)
      · exact .inl ⟨q, by simp, rfl⟩
      · exact .inr ⟨n, rfl, hn.1, by have := hn.2; omega⟩
    · rintro label (⟨q', hq', rfl⟩ | ⟨n, rfl, hn⟩)
      · exact .inl ⟨q', by simp [hq'], rfl⟩
      · exact .inr ⟨n, rfl, by have := hn.1; omega, by have := hn.2; omega⟩

/-- The code of a routine stands somewhere among the routines. -/
theorem CodeAt.routine {lines : List Line} {n : Nat} {environment : Environment}
    {topLevel : List String} {first : Nat} {qs : List Procedure}
    (h : CodeAt lines n (routines environment topLevel first qs)) {q : Procedure} (hq : q ∈ qs) :
    ∃ n first, CodeAt lines n (q.code environment topLevel first) := by
  induction qs generalizing n first with
  | nil => cases hq
  | cons q' qs ih =>
    cases hq with
    | head => exact ⟨n, first, h.left⟩
    | tail _ hq => exact ih h.right hq

/-- The main program, from its label to the exit. -/
def Program.mainCode (p : Program) (first : Nat) : Code :=
  ofLines [.define .main] ++ Statement.listCode ⟨p.environment, .main⟩ first p.tree ++
    ofInstructions [.loadImmediate .v0 10, .systemCall]

/-- The division guard, from its label on. -/
def guardCode : Code :=
  ofLines [.define .divisionGuard] ++
    ofInstructions [.loadAddress .a0 .divisionMessage, .loadImmediate .v0 4, .systemCall,
      .loadImmediate .a0 1, .loadImmediate .v0 17, .systemCall]

/-- The places of a program's parts among its lines. -/
structure Linked (p : Program) (lines : List Line) : Prop where
  labels : (definitions lines).Nodup
  main : ∃ n first, CodeAt lines n (p.mainCode first)
  routine : ∀ q ∈ p.environment.procedures, ∃ n first,
    CodeAt lines n (q.code p.environment p.topLevelNames first)
  guard : ∃ n, CodeAt lines n guardCode
  newline : textAt? lines .newline = some "\n"
  divisionMessage : textAt? lines .divisionMessage = some "Division by zero\n"
  words : ∀ x ∈ p.globalNames, (wordAt? lines (.variable x)).isSome

namespace Program

variable {p : Program}

theorem code_eq (p : Program) (first : Nat) : p.code first =
    ofLines (p.dataLines ++ [.textSection, .global .main]) ++ (p.mainCode first ++
      (routines p.environment p.topLevelNames (first + Statement.listLabels p.tree)
        p.environment.procedures ++ guardCode)) := by
  have h : p.dataLines ++ [.textSection, .global .main, .define .main] =
      p.dataLines ++ [.textSection, .global .main] ++ [.define .main] := by simp
  simp only [code, mainCode, guardCode, h, ofLines_append, append_assoc]

theorem definitions_dataLines (p : Program) : definitions p.dataLines = [] := by
  refine List.filterMap_eq_nil_iff.2 fun line hl => ?_
  simp only [dataLines, List.cons_append, List.nil_append, List.mem_cons, List.mem_map] at hl
  obtain rfl | rfl | rfl | ⟨x, -, rfl⟩ := hl <;> rfl

/-- The number of labels that the code of a program mints. -/
def labelCount (p : Program) : Nat :=
  Statement.listLabels p.tree + routineLabels p.environment.procedures

/-- The labels of the code of a program whose first label has a given number. -/
def CodeLabel (p : Program) (first : Nat) (label : Label) : Prop :=
  label = .main ∨ label = .divisionGuard ∨
    (∃ q ∈ p.environment.procedures, label = .procedure q.name) ∨
    Numbered (Between first (first + p.labelCount)) label

/-- No label of a program's code is defined twice. -/
theorem code_defines (hn : (p.environment.procedures.map Procedure.name).Nodup)
    (first : Nat) : Defines (p.CodeLabel first) (p.code first) := by
  have hdata : definitions (ofLines (p.dataLines ++ [.textSection, .global .main])).lines = [] := by
    rw [lines_ofLines, definitions_lines_append, definitions_dataLines]
    rfl
  have hmain : Defines (fun label => label = .main ∨
      Numbered (Between first (first + Statement.listLabels p.tree)) label) (p.mainCode first) := by
    refine .before (.append (.single (S := (· = .main)) _ rfl)
      (Statement.listCode_defines ⟨p.environment, .main⟩ first p.tree) ?_ (fun _ => .inl)
      fun _ => .inr) (definitions_ofInstructions _)
    rintro _ rfl ⟨n, hn, -⟩
    cases hn
  have hguard : Defines (· = .divisionGuard) guardCode :=
    .before (.single _ rfl) (definitions_ofInstructions _)
  have hroutines := (routines_define p.environment p.topLevelNames
    (first + Statement.listLabels p.tree) _ hn).append hguard (U := fun label =>
      label = .divisionGuard ∨ (∃ q ∈ p.environment.procedures, label = .procedure q.name) ∨
        Numbered (Between (first + Statement.listLabels p.tree) (first + p.labelCount)) label)
    (by rintro _ (⟨q, -, rfl⟩ | ⟨n, rfl, -⟩) he <;> cases he)
    (by rw [labelCount, ← Nat.add_assoc]; exact fun _ => .inr) (fun _ => .inl)
  rw [code_eq]
  refine .after hdata (hmain.append hroutines ?_ ?_ ?_)
  · rintro _ (rfl | ⟨n, rfl, hn⟩) (he | ⟨q, -, he⟩ | ⟨n', he, hn'⟩) <;> cases he
    have := hn.2
    have := hn'.1
    omega
  · rintro _ (rfl | ⟨n, rfl, hn⟩)
    · exact .inl rfl
    · exact .inr (.inr (.inr ⟨n, rfl, hn.1, Nat.lt_of_lt_of_le hn.2 (by simp [labelCount])⟩))
  · rintro _ (rfl | h | ⟨n, rfl, hn⟩)
    · exact .inr (.inl rfl)
    · exact .inr (.inr (.inl h))
    · exact .inr (.inr (.inr ⟨n, rfl, Nat.le_trans (Nat.le_add_right _ _) hn.1, hn.2⟩))

/-- The data section in front of other lines. -/
theorem textAt?_code (p : Program) (rest : List Line) :
    textAt? (p.dataLines ++ rest) .newline = some "\n" ∧
      textAt? (p.dataLines ++ rest) .divisionMessage = some "Division by zero\n" :=
  ⟨rfl, rfl⟩

theorem wordAt?_code {x : String} (hx : x ∈ p.globalNames) (rest : List Line) :
    (wordAt? (p.dataLines ++ rest) (.variable x)).isSome := by
  rw [wordAt?, List.isSome_findSome?, List.any_eq_true]
  refine ⟨.word (.variable x) 0, List.mem_append_left _ ?_, by simp⟩
  simp only [dataLines, List.mem_append, List.mem_map]
  exact .inr ⟨x, hx, rfl⟩

/-- A program with code is linked: its parts stand where their labels say. -/
theorem linked {first : Nat} (hn : (p.environment.procedures.map Procedure.name).Nodup)
    (ho : (p.code first).obstacle = none) : Linked p (p.code first).lines := by
  have hcode : CodeAt (p.code first).lines 0
      (ofLines (p.dataLines ++ [.textSection, .global .main]) ++ (p.mainCode first ++
        (routines p.environment p.topLevelNames (first + Statement.listLabels p.tree)
          p.environment.procedures ++ guardCode))) := by
    rw [← code_eq]
    exact ⟨ho, [], by simp⟩
  obtain ⟨rest, hlines⟩ : ∃ rest, (p.code first).lines = p.dataLines ++ rest := by
    obtain ⟨rest, h⟩ := hcode.left.lines
    rw [lines_ofLines, List.append_assoc, List.drop_zero] at h
    exact ⟨_, h.symm⟩
  refine ⟨(code_defines hn first).nodup, ⟨_, first, hcode.right.left⟩,
    fun q hq => hcode.right.right.left.routine hq, ⟨_, hcode.right.right.right⟩, ?_, ?_,
    fun x hx => ?_⟩
  · rw [hlines]; exact (p.textAt?_code rest).1
  · rw [hlines]; exact (p.textAt?_code rest).2
  · rw [hlines]; exact wordAt?_code hx rest

end Program

end Blockwork
