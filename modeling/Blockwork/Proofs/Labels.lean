import Blockwork.Proofs.CheckedCalls
import Blockwork.Proofs.Linking

/-!
# Code is closed

Each label that the code of a program uses is defined in the code or in the data section, and each
label that the code mints is defined as well, so that the labels with numbers are those from the
first one up to the counter. That no label is defined twice is `Program.code_defines`.

* `Covers`: a piece of code without an obstacle defines all labels of a kind and mints so many;
  `Statement.code_covers`, `Program.textCode_covers`.
* `Instruction.uses`, `Uses`: the labels that code uses; `Statement.code_uses`, by recursion on
  trees, for any kind of labels that holds of what a routine may use.
* `labels`: the labels of lines, in the code or in the data section. `Program.uses_code`,
  `Program.labels_nodup`, `Program.sections_code`: each that a program uses is a `Program.DataLabel`
  or a `Program.CodeLabel`, none is defined twice, and each is defined in its section.
-/

namespace Blockwork

open Code

/-! ## The labels that instructions use -/

/-- The label of a word in the data section. -/
def Location.uses : Location → List Label
  | .relative _ _ => []
  | .labelled label => [label]

/-- The labels that an instruction uses. -/
def Instruction.uses : Instruction → List Label
  | .loadAddress _ label | .branchEqual _ _ label | .branchNotEqual _ _ label | .jump label
  | .jumpAndLink label => [label]
  | .load _ location | .store _ location => location.uses
  | _ => []

/-- The labels that a line uses. -/
def Line.uses : Line → List Label
  | .instruction i => i.uses
  | .global label => [label]
  | _ => []

theorem Location.mem_uses {location : Location} {label : Label} :
    label ∈ location.uses ↔ location = .labelled label := by
  cases location with
  | relative offset base => simp [uses]
  | labelled l => simp [uses, eq_comm]

/-- Code that computes something: instructions, whose labels are in `U`, and nothing else. -/
def Computes (U : Label → Prop) (c : Code) : Prop :=
  ∀ item ∈ c.items, ∃ i, item = .line (.instruction i) ∧ ∀ label ∈ i.uses, U label

/-- Code of statements: instructions, whose labels are in `U`, and definitions of labels. -/
def Uses (U : Label → Prop) (c : Code) : Prop :=
  ∀ line ∈ c.lines, (∃ label, line = .define label) ∨
    ∃ i, line = .instruction i ∧ ∀ label ∈ i.uses, U label

variable {U : Label → Prop} {a b : Code}

/-- The second piece is left out if the first one ends at an obstacle. -/
theorem Computes.append (ha : Computes U a) (hb : a.obstacle = none → Computes U b) :
    Computes U (a ++ b) := by
  rw [append_def]
  cases ho : a.obstacle with
  | none => exact List.forall_mem_append.2 ⟨ha, hb ho⟩
  | some o => exact ha

theorem computes_ofInstructions {is : List Instruction}
    (h : ∀ i ∈ is, ∀ label ∈ i.uses, U label) : Computes U (ofInstructions is) := by
  intro item hitem
  simp only [ofInstructions, ofLines, List.map_map, List.mem_map] at hitem
  obtain ⟨i, hi, rfl⟩ := hitem
  exact ⟨i, rfl, h i hi⟩

theorem Computes.labelCount (h : Computes U a) : a.labelCount = 0 := by
  refine List.count_eq_zero.2 fun hm => ?_
  obtain ⟨i, hi, -⟩ := h _ hm
  cases hi

theorem Computes.uses (h : Computes U a) : Uses U a := by
  intro line hline
  obtain ⟨item, hitem, heq⟩ := List.mem_filterMap.1 hline
  obtain ⟨i, rfl, hi⟩ := h item hitem
  cases heq
  exact .inr ⟨i, rfl, hi⟩

theorem Uses.append (ha : Uses U a) (hb : a.obstacle = none → Uses U b) : Uses U (a ++ b) := by
  cases ho : a.obstacle with
  | none =>
    unfold Uses
    rw [lines_append ho]
    exact List.forall_mem_append.2 ⟨ha, hb ho⟩
  | some o =>
    rw [append_def, ho]
    exact ha

theorem uses_mint : Uses U Code.mint := fun _ h => nomatch h

theorem uses_define (label : Label) : Uses U (ofLines [.define label]) := by
  intro line h
  rw [lines_ofLines, List.mem_singleton] at h
  exact .inl ⟨label, h⟩

/-- What the code of every routine may use. -/
structure Scope.Permits (scope : Scope) (U : Label → Prop) : Prop where
  guard : U .divisionGuard
  newline : U .newline
  procedure : ∀ q ∈ scope.environment.procedures, U (.procedure q.name)

variable {scope : Scope}

theorem Operator.computes (hU : scope.Permits U) (op : Operator) :
    Computes U (ofInstructions op.instructions) := by
  refine computes_ofInstructions ?_
  cases op
  case divide => simpa [Operator.instructions, Instruction.uses] using hU.guard
  all_goals simp [Operator.instructions, Instruction.uses]

theorem computes_push : Computes U push :=
  computes_ofInstructions (by simp [Instruction.uses, Location.uses])

theorem computes_pop : Computes U pop :=
  computes_ofInstructions (by simp [Instruction.uses, Location.uses])

theorem computes_checkCall (name : String) (count : Nat) :
    Computes U (scope.checkCall name count) := by
  unfold Scope.checkCall
  split
  · exact fun _ h => nomatch h
  · split <;> exact fun _ h => nomatch h

mutual

/-- An expression uses the division guard, its variables, and the procedures that it calls, which
have to be declared. -/
theorem Expression.code_computes (hU : scope.Permits U) : (e : Expression) →
    (∀ x ∈ e.variables, ∀ label, scope.layout.locate x = .labelled label → U label) →
    Computes U (e.code scope)
  | .number _, _ => computes_ofInstructions (by simp [Instruction.uses])
  | .variable name, h => by
    refine computes_ofInstructions fun i hi label hl => ?_
    obtain rfl := List.mem_singleton.1 hi
    exact h name List.mem_cons_self label (Location.mem_uses.1 hl)
  | .binary left op right, h => by
    simp only [Expression.variables, List.forall_mem_append] at h
    exact ((((left.code_computes hU h.1).append fun _ => computes_push).append fun _ =>
      right.code_computes hU h.2).append fun _ => computes_pop).append fun _ => op.computes hU
  | .call name arguments, h => by
    refine (((computes_checkCall name _).append fun _ =>
      Expression.argumentCode_computes hU arguments h).append fun ho => ?_).append fun _ => ?_
    · obtain ⟨hcheck, -⟩ := obstacle_append_eq_none.1 ho
      rw [Scope.obstacle_checkCall] at hcheck
      obtain ⟨q, hq, -⟩ := Environment.allows_iff.2 hcheck
      obtain ⟨hmem, rfl⟩ := Environment.getProcedure_eq_ok hq
      exact computes_ofInstructions (by simpa [Instruction.uses] using hU.procedure q hmem)
    · split
      · exact fun _ h => nomatch h
      · exact computes_ofInstructions (by simp [Instruction.uses])

theorem Expression.argumentCode_computes (hU : scope.Permits U) : (es : List Expression) →
    (∀ x ∈ Expression.listVariables es, ∀ label,
      scope.layout.locate x = .labelled label → U label) →
    Computes U (Expression.argumentCode scope es)
  | [], _ => fun _ h => nomatch h
  | e :: es, h => by
    simp only [Expression.listVariables, List.forall_mem_append] at h
    exact ((e.code_computes hU h.1).append fun _ => computes_push).append fun _ =>
      Expression.argumentCode_computes hU es h.2

end

theorem branchUnless_computes (hU : scope.Permits U) {condition : Expression} {target : Nat}
    (h : ∀ x ∈ condition.variables, ∀ label, scope.layout.locate x = .labelled label → U label)
    (ht : U (.local target)) : Computes U (branchUnless scope condition target) :=
  (condition.code_computes hU h).append fun _ =>
    computes_ofInstructions (by simpa [Instruction.uses] using ht)

mutual

/-- A statement uses what its expressions use, its variables, and its own labels. -/
theorem Statement.code_uses (hU : scope.Permits U) (first : Nat) : (s : Statement) →
    (∀ x ∈ s.referenced, ∀ label, scope.layout.locate x = .labelled label → U label) →
    (∀ n, Between first (first + s.labels) n → U (.local n)) → Uses U (s.code scope first)
  | .assign name value, h, _ => by
    simp only [Statement.referenced, List.forall_mem_cons] at h
    refine ((value.code_computes hU h.2).append fun _ =>
      computes_ofInstructions fun i hi label hl => ?_).uses
    obtain rfl := List.mem_singleton.1 hi
    exact h.1 label (Location.mem_uses.1 hl)
  | .block body, h, hn => Statement.listCode_uses hU first body h hn
  | .branch condition onTrue onFalse, h, hn => by
    simp only [Statement.referenced, List.forall_mem_append] at h
    simp only [Statement.labels] at hn
    have htrue := Statement.listCode_uses hU (first + 1) onTrue h.1.2
      fun n hm => hn n ⟨by have := hm.1; omega, by have := hm.2; split <;> omega⟩
    have hleft : Uses U (Code.mint ++ branchUnless scope condition first ++
        Statement.listCode scope (first + 1) onTrue) :=
      (uses_mint.append fun _ => (branchUnless_computes hU h.1.1
        (hn first ⟨Nat.le_refl _, by split <;> omega⟩)).uses).append fun _ => htrue
    refine hleft.append fun _ => ?_
    split
    · exact uses_define _
    next he =>
      have hlast := hn (first + 1 + Statement.listLabels onTrue)
        ⟨by omega, by rw [if_neg he]; omega⟩
      have hfalse := Statement.listCode_uses hU (first + 1 + Statement.listLabels onTrue + 1)
        onFalse h.2 fun n hm =>
          hn n ⟨by have := hm.1; omega, by have := hm.2; rw [if_neg he]; omega⟩
      have hjump : Uses U (ofInstructions [.jump (.local (first + 1 + listLabels onTrue))]) :=
        (computes_ofInstructions (by simpa [Instruction.uses] using hlast)).uses
      exact (((uses_mint.append fun _ => hjump).append fun _ => uses_define _).append
        fun _ => hfalse).append fun _ => uses_define _
  | .loop condition body, h, hn => by
    simp only [Statement.referenced, List.forall_mem_append] at h
    simp only [Statement.labels] at hn
    have hbody := Statement.listCode_uses hU (first + 2) body h.2
      fun n hm => hn n ⟨by have := hm.1; omega, by have := hm.2; omega⟩
    have hunless := (branchUnless_computes hU h.1 (hn (first + 1) ⟨by omega, by omega⟩)).uses
    have hjump : Uses U (ofInstructions [.jump (.local first)]) :=
      (computes_ofInstructions (by
        simpa [Instruction.uses] using hn first ⟨by omega, by omega⟩)).uses
    exact (((((uses_mint.append fun _ => uses_mint).append fun _ => uses_define _).append
      fun _ => hunless).append fun _ => hbody).append fun _ => hjump).append
        fun _ => uses_define _
  | .read _, _, _ => fun _ h => nomatch h
  | .display value, h, _ =>
    ((value.code_computes hU h).append fun _ =>
      computes_ofInstructions (by simpa [Instruction.uses] using hU.newline)).uses
  | .return value, h, _ => (value.code_computes hU h).uses
  | .procedure .., _, _ => fun _ h => nomatch h

theorem Statement.listCode_uses (hU : scope.Permits U) (first : Nat) : (ss : List Statement) →
    (∀ x ∈ Statement.listReferenced ss, ∀ label,
      scope.layout.locate x = .labelled label → U label) →
    (∀ n, Between first (first + Statement.listLabels ss) n → U (.local n)) →
    Uses U (Statement.listCode scope first ss)
  | [], _, _ => fun _ h => nomatch h
  | s :: ss, h, hn => by
    simp only [Statement.listReferenced, List.forall_mem_append] at h
    simp only [Statement.listLabels] at hn
    exact (s.code_uses hU first h.1 fun n hm =>
      hn n ⟨hm.1, by have := hm.2; omega⟩).append fun _ =>
        Statement.listCode_uses hU (first + s.labels) ss h.2 fun n hm =>
          hn n ⟨by have := hm.1; omega, by have := hm.2; omega⟩

end

/-! ## The labels that are defined -/

/-- If the piece has no obstacle, it mints so many labels, and all those in `S` are defined. -/
def Covers (S : Label → Prop) (count : Nat) (c : Code) : Prop :=
  c.obstacle = none → c.labelCount = count ∧ ∀ label, S label → label ∈ definitions c.lines

namespace Covers

variable {S T : Label → Prop} {m n : Nat}

theorem append (ha : Covers S m a) (hb : Covers T n b) :
    Covers (fun label => S label ∨ T label) (m + n) (a ++ b) := by
  intro ho
  obtain ⟨hoa, hob⟩ := obstacle_append_eq_none.1 ho
  obtain ⟨hm, hS⟩ := ha hoa
  obtain ⟨hn, hT⟩ := hb hob
  refine ⟨by rw [labelCount_append hoa, hm, hn], fun label hlabel => ?_⟩
  rw [lines_append hoa, definitions_lines_append, List.mem_append]
  exact hlabel.imp (hS label) (hT label)

theorem mono (h : Covers S m a) (hm : n = m) (hT : ∀ label, T label → S label) : Covers T n a :=
  fun ho => ⟨hm ▸ (h ho).1, fun label hlabel => (h ho).2 label (hT label hlabel)⟩

end Covers

theorem covers_mint : Covers (fun _ => False) 1 Code.mint :=
  fun _ => ⟨rfl, fun _ h => h.elim⟩

theorem covers_define (label : Label) : Covers (· = label) 0 (ofLines [.define label]) :=
  fun _ => ⟨rfl, fun l hl => by rw [lines_ofLines, hl]; exact List.mem_cons_self⟩

theorem Computes.covers (h : Computes (fun _ => True) a) : Covers (fun _ => False) 0 a :=
  fun _ => ⟨h.labelCount, fun _ h => h.elim⟩

/-- Anything may be used. -/
theorem permits_any (scope : Scope) : scope.Permits fun _ => True :=
  ⟨trivial, trivial, fun _ _ => trivial⟩

theorem computes_any (is : List Instruction) : Computes (fun _ => True) (ofInstructions is) :=
  computes_ofInstructions fun _ _ _ _ => trivial

theorem Expression.computes_any (scope : Scope) (e : Expression) :
    Computes (fun _ => True) (e.code scope) :=
  e.code_computes (permits_any scope) fun _ _ _ _ => trivial

theorem covers_ofInstructions (is : List Instruction) :
    Covers (fun _ => False) 0 (ofInstructions is) :=
  (computes_any is).covers

theorem branchUnless_covers (scope : Scope) (condition : Expression) (target : Nat) :
    Covers (fun _ => False) 0 (branchUnless scope condition target) :=
  (branchUnless_computes (permits_any scope) (fun _ _ _ _ => trivial) trivial).covers

@[simp] theorem numbered_local {S : Nat → Prop} {n : Nat} : Numbered S (.local n) ↔ S n := by
  simp [Numbered]

/-- A piece that mints no labels. -/
theorem Covers.numbered_zero (h : Covers (fun _ => False) 0 a) (first : Nat) :
    Covers (Numbered (Between first (first + 0))) 0 a := by
  refine h.mono rfl ?_
  rintro _ ⟨n, -, hn⟩
  have := hn.2
  have := hn.1
  omega

/-- Labels with numbers, by their numbers. -/
theorem Covers.numbered {S : Label → Prop} {T : Nat → Prop} {m n : Nat} (h : Covers S m a)
    (hm : n = m) (hT : ∀ n, T n → S (.local n)) : Covers (Numbered T) n a := by
  refine h.mono hm ?_
  rintro _ ⟨n, rfl, hn⟩
  exact hT n hn

mutual

/-- A statement defines all labels that it mints. -/
theorem Statement.code_covers (scope : Scope) (first : Nat) : (s : Statement) →
    Covers (Numbered (Between first (first + s.labels))) s.labels (s.code scope first)
  | .assign name value =>
    ((value.computes_any scope).append fun _ => computes_any _).covers.numbered_zero first
  | .block body => Statement.listCode_covers scope first body
  | .branch condition onTrue [] => by
    simp only [Statement.code, Statement.labels, List.isEmpty_nil, if_true]
    refine (((covers_mint.append (branchUnless_covers scope condition first)).append
      (Statement.listCode_covers scope (first + 1) onTrue)).append
      (covers_define (.local first))).numbered ?_ fun n hn => ?_
    · simp only [Statement.listLabels]; omega
    · simp only [Between, Statement.listLabels, numbered_local, Label.local.injEq] at hn ⊢
      omega
  | .branch condition onTrue (s :: ss) => by
    simp only [Statement.code, Statement.labels, List.isEmpty_cons]
    refine (((covers_mint.append (branchUnless_covers scope condition first)).append
      (Statement.listCode_covers scope (first + 1) onTrue)).append
      ((((covers_mint.append (covers_ofInstructions _)).append
        (covers_define (.local first))).append
          (Statement.listCode_covers scope _ (s :: ss))).append
            (covers_define (.local _)))).numbered ?_ fun n hn => ?_
    · simp; omega
    · simp only [Between, numbered_local, Label.local.injEq] at hn ⊢
      simp at hn
      omega
  | .loop condition body => by
    refine ((((((covers_mint.append covers_mint).append (covers_define (.local first))).append
      (branchUnless_covers scope condition (first + 1))).append
      (Statement.listCode_covers scope (first + 2) body)).append
      (covers_ofInstructions _)).append (covers_define (.local (first + 1)))).numbered ?_
        fun n hn => ?_
    · simp only [Statement.labels]; omega
    · simp only [Between, Statement.labels, numbered_local, Label.local.injEq] at hn ⊢
      omega
  | .read _ => fun ho => nomatch ho
  | .display value =>
    ((value.computes_any scope).append fun _ => computes_any _).covers.numbered_zero first
  | .return value => (value.computes_any scope).covers.numbered_zero first
  | .procedure .. => (covers_ofInstructions []).numbered_zero first

theorem Statement.listCode_covers (scope : Scope) (first : Nat) : (ss : List Statement) →
    Covers (Numbered (Between first (first + Statement.listLabels ss))) (Statement.listLabels ss)
      (Statement.listCode scope first ss)
  | [] => (covers_ofInstructions []).numbered_zero first
  | s :: ss => by
    refine ((s.code_covers scope first).append
      (Statement.listCode_covers scope (first + s.labels) ss)).numbered rfl fun n hn => ?_
    simp only [Between, Statement.listLabels, numbered_local] at hn ⊢
    omega

end

/-! ## Programs -/

theorem uses_ofInstructions {is : List Instruction} (h : ∀ i ∈ is, ∀ label ∈ i.uses, U label) :
    Uses U (ofInstructions is) :=
  (computes_ofInstructions h).uses

/-- A routine uses the variables that have no place in its frame. -/
theorem Procedure.code_uses {environment : Environment} {topLevel : List String} {first : Nat}
    {q : Procedure} (hU : Scope.Permits ⟨environment, .main⟩ U)
    (hvar : ∀ x ∈ Statement.listReferenced q.body,
      Layout.offset? q (q.locals topLevel) x = none → U (.variable x))
    (hn : ∀ n, Between first (first + Statement.listLabels q.body) n → U (.local n)) :
    Uses U (q.code environment topLevel first) := by
  have hlocate {x : String} {label : Label}
      (h : (Layout.frame q (q.locals topLevel)).locate x = .labelled label) :
      Layout.offset? q (q.locals topLevel) x = none ∧ label = .variable x := by
    simp only [Layout.locate] at h
    split at h
    next => cases h
    next ho => cases h; exact ⟨ho, rfl⟩
  have hscope : Scope.Permits ⟨environment, .frame q (q.locals topLevel)⟩ U :=
    ⟨hU.guard, hU.newline, hU.procedure⟩
  have hbody := Statement.listCode_uses hscope first q.body (fun x hx label hl => by
    obtain ⟨ho, rfl⟩ := hlocate hl
    exact hvar x hx ho) hn
  -- The result has a place in the frame.
  obtain ⟨offset, base, hresult⟩ : ∃ offset base,
      (Layout.frame q (q.locals topLevel)).locate q.name = .relative offset base := by
    cases h : (Layout.frame q (q.locals topLevel)).locate q.name with
    | relative offset base => exact ⟨offset, base, rfl⟩
    | labelled label => exact absurd rfl (Layout.offset?_eq_none_iff.1 (hlocate h).1).2.2
  refine ((((uses_define _).append fun _ => ?_).append fun _ => ?_).append fun _ =>
    hbody).append fun _ => ?_
  · exact uses_ofInstructions (by simp [Instruction.uses, Location.uses])
  · refine uses_ofInstructions fun i hi => ?_
    obtain ⟨n, -, rfl⟩ := List.mem_map.1 hi
    exact List.forall_mem_nil _
  · exact uses_ofInstructions (by simp [hresult, Instruction.uses, Location.uses])

theorem routines_use {environment : Environment} {topLevel : List String} {first : Nat}
    {qs : List Procedure} (hU : Scope.Permits ⟨environment, .main⟩ U)
    (hvar : ∀ q ∈ qs, ∀ x ∈ Statement.listReferenced q.body,
      Layout.offset? q (q.locals topLevel) x = none → U (.variable x))
    (hn : ∀ n, Between first (first + routineLabels qs) n → U (.local n)) :
    Uses U (routines environment topLevel first qs) := by
  induction qs generalizing first with
  | nil => exact fun _ h => nomatch h
  | cons q qs ih =>
    rw [List.forall_mem_cons] at hvar
    rw [routineLabels] at hn
    refine (Procedure.code_uses hU hvar.1 fun n hm => hn n ⟨hm.1, ?_⟩).append fun _ =>
      ih hvar.2 fun n hm => hn n ⟨?_, ?_⟩
    · have := hm.2; omega
    · have := hm.1; omega
    · have := hm.2; omega

theorem Procedure.code_covers (environment : Environment) (topLevel : List String) (first : Nat)
    (q : Procedure) : Covers
      (fun label => label = .procedure q.name ∨
        Numbered (Between first (first + Statement.listLabels q.body)) label)
      (Statement.listLabels q.body) (q.code environment topLevel first) := by
  refine (((((covers_define (.procedure q.name)).append (covers_ofInstructions _)).append
    (covers_ofInstructions _)).append (Statement.listCode_covers _ first q.body)).append
      (covers_ofInstructions _)).mono (by omega) fun label h => ?_
  simpa using h

theorem routines_cover (environment : Environment) (topLevel : List String) (first : Nat)
    (qs : List Procedure) : Covers
      (fun label => (∃ q ∈ qs, label = .procedure q.name) ∨
        Numbered (Between first (first + routineLabels qs)) label)
      (routineLabels qs) (routines environment topLevel first qs) := by
  induction qs generalizing first with
  | nil =>
    refine (covers_ofInstructions []).mono rfl ?_
    rintro _ (⟨q, hq, -⟩ | ⟨n, rfl, hn⟩)
    · cases hq
    · exact absurd hn (by simp [Between, routineLabels])
  | cons q qs ih =>
    rw [routineLabels]
    refine ((q.code_covers environment topLevel first).append (ih _)).mono rfl ?_
    rintro _ (⟨q', hq', rfl⟩ | ⟨n, rfl, hn⟩)
    · rcases List.mem_cons.1 hq' with rfl | hq'
      · exact .inl (.inl rfl)
      · exact .inr (.inl ⟨q', hq', rfl⟩)
    · simp only [Between, numbered_local] at hn ⊢
      omega

namespace Program

variable {p : Program} {first : Nat}

/-- The labels of the data section. -/
def DataLabel (p : Program) (label : Label) : Prop :=
  label = .newline ∨ label = .divisionMessage ∨ ∃ x ∈ p.globalNames, label = .variable x

/-- The code behind the directives. -/
def textCode (p : Program) (first : Nat) : Code :=
  p.mainCode first ++
    (routines p.environment p.topLevelNames (first + Statement.listLabels p.tree)
      p.environment.procedures ++ guardCode)

theorem lines_code (p : Program) (first : Nat) : (p.code first).lines =
    p.dataLines ++ .textSection :: .global .main :: (p.textCode first).lines := by
  rw [code_eq, lines_append rfl, lines_ofLines, List.append_assoc]
  rfl

theorem outerNames_subset_globalNames {q : Procedure} (hq : q ∈ p.environment.procedures)
    {x : String} (hx : x ∈ Statement.listReferenced q.body)
    (ho : Layout.offset? q (q.locals p.topLevelNames) x = none) : x ∈ p.globalNames := by
  obtain ⟨hlocal, hparam, hname⟩ := Layout.offset?_eq_none_iff.1 ho
  simp only [globalNames, mem_sortNames, List.mem_append, List.mem_flatMap]
  refine .inr ⟨q, hq, List.mem_filter.2 ⟨hx, ?_⟩⟩
  simp [hlocal, hparam, hname]

/-- All labels that a program uses are labels of its code or of its data section. -/
theorem textCode_uses (p : Program) (first : Nat) :
    Uses (fun label => p.DataLabel label ∨ p.CodeLabel first label) (p.textCode first) := by
  have hU : Scope.Permits ⟨p.environment, .main⟩
      fun label => p.DataLabel label ∨ p.CodeLabel first label :=
    ⟨.inr (.inr (.inl rfl)), .inl (.inl rfl), fun q hq => .inr (.inr (.inr (.inl ⟨q, hq, rfl⟩)))⟩
  have hglobal {x : String} (hx : x ∈ p.globalNames) :
      p.DataLabel (.variable x) ∨ p.CodeLabel first (.variable x) := .inl (.inr (.inr ⟨x, hx, rfl⟩))
  have hlocal {n : Nat} (hn : Between first (first + p.labelCount) n) :
      p.DataLabel (.local n) ∨ p.CodeLabel first (.local n) :=
    .inr (.inr (.inr (.inr ⟨n, rfl, hn⟩)))
  have hmain := Statement.listCode_uses hU first p.tree (fun x hx label hl => by
    cases hl
    refine hglobal ?_
    simp only [globalNames, mem_sortNames, List.mem_append]
    exact .inl (.inr hx)) fun n hn =>
      hlocal ⟨hn.1, Nat.lt_of_lt_of_le hn.2 (by simp [labelCount])⟩
  have hroutines : Uses (fun label => p.DataLabel label ∨ p.CodeLabel first label)
      (routines p.environment p.topLevelNames (first + Statement.listLabels p.tree)
        p.environment.procedures) :=
    routines_use hU (fun q hq x hx ho => hglobal (outerNames_subset_globalNames hq hx ho))
      fun n hn => hlocal ⟨Nat.le_trans (Nat.le_add_right _ _) hn.1, by
        rw [labelCount, ← Nat.add_assoc]; exact hn.2⟩
  refine (((uses_define _).append fun _ => hmain).append fun _ => ?_).append fun _ =>
    hroutines.append fun _ => (uses_define _).append fun _ => ?_
  · exact uses_ofInstructions (by simp [Instruction.uses])
  · refine uses_ofInstructions ?_
    simpa [Instruction.uses] using .inl (.inr (.inl rfl))

theorem textCode_covers (p : Program) (first : Nat) :
    Covers (p.CodeLabel first) p.labelCount (p.textCode first) := by
  have hmain := ((covers_define .main).append
    (Statement.listCode_covers ⟨p.environment, .main⟩ first p.tree)).append
      (covers_ofInstructions [.loadImmediate .v0 10, .systemCall])
  have hroutines := routines_cover p.environment p.topLevelNames
    (first + Statement.listLabels p.tree) p.environment.procedures
  refine (hmain.append (hroutines.append
    ((covers_define .divisionGuard).append (covers_ofInstructions _)))).mono
      (by simp [labelCount]) ?_
  rintro _ (rfl | rfl | h | ⟨n, rfl, hn⟩)
  · exact .inl (.inl (.inl rfl))
  · exact .inr (.inr (.inl rfl))
  · exact .inr (.inl (.inl h))
  · simp only [Between, labelCount, numbered_local] at hn ⊢
    omega

end Program

/-! ## All labels of a program -/

/-- The label that a line defines, in the code or in the data section. -/
def Line.label? : Line → Option Label
  | .string label _ | .word label _ | .define label => some label
  | _ => none

/-- The labels that lines define, in order. -/
def labels (lines : List Line) : List Label :=
  lines.filterMap Line.label?

theorem Uses.labels_eq {c : Code} (h : Uses U c) : labels c.lines = definitions c.lines := by
  refine List.filterMap_congr fun line hline => ?_
  obtain ⟨label, rfl⟩ | ⟨i, rfl, -⟩ := h line hline <;> rfl

namespace Program

variable {p : Program} {first : Nat}

theorem labels_dataLines (p : Program) :
    labels p.dataLines = .newline :: .divisionMessage :: p.globalNames.map .variable := by
  have h : labels (p.globalNames.map fun x => .word (.variable x) 0) =
      p.globalNames.map .variable := by
    rw [labels, List.filterMap_map]
    exact congrFun List.filterMap_eq_map' p.globalNames
  exact congrArg (fun words => Label.newline :: .divisionMessage :: words) h

theorem mem_labels_dataLines {label : Label} :
    label ∈ labels p.dataLines ↔ p.DataLabel label := by
  simp [labels_dataLines, DataLabel, eq_comm]

theorem labels_textCode (p : Program) (first : Nat) :
    labels (p.textCode first).lines = definitions (p.code first).lines := by
  rw [(p.textCode_uses first).labels_eq, lines_code, definitions_lines_append,
    definitions_dataLines]
  rfl

theorem labels_code (p : Program) (first : Nat) : labels (p.code first).lines =
    labels p.dataLines ++ definitions (p.code first).lines := by
  rw [← labels_textCode, lines_code, labels, List.filterMap_append]
  rfl

theorem mem_labels_code {label : Label} : label ∈ labels (p.code first).lines ↔
    p.DataLabel label ∨ label ∈ definitions (p.code first).lines := by
  rw [labels_code, List.mem_append, mem_labels_dataLines]

/-- The lines of the two sections, each with its own labels. -/
theorem sections_code (hn : (p.environment.procedures.map Procedure.name).Nodup) (first : Nat) :
    ∃ data text, (p.code first).lines = .dataSection :: data ++ .textSection :: text ∧
      (∀ line ∈ data ++ text, line ≠ .dataSection ∧ line ≠ .textSection) ∧
      (∀ label ∈ labels data, p.DataLabel label) ∧
      ∀ label ∈ labels text, p.CodeLabel first label := by
  obtain ⟨data, hdata⟩ : ∃ data, p.dataLines = .dataSection :: data := ⟨_, rfl⟩
  refine ⟨data, .global .main :: (p.textCode first).lines, by rw [lines_code, hdata], ?_,
    fun label hl => ?_, fun label hl => ?_⟩
  · rw [List.forall_mem_append, List.forall_mem_cons]
    refine ⟨?_, by simp, fun line hl => ?_⟩
    · cases hdata
      simp
    · obtain ⟨l, rfl⟩ | ⟨i, rfl, -⟩ := p.textCode_uses first line hl <;> simp
  · refine mem_labels_dataLines.1 ?_
    rw [hdata]
    exact hl
  · refine (code_defines hn first).all label ?_
    rw [← labels_textCode]
    exact hl

/-- All labels that lines use are labels of the code or of the data section. -/
theorem uses_code {line : Line} (hl : line ∈ (p.code first).lines) {label : Label}
    (hu : label ∈ line.uses) : p.DataLabel label ∨ p.CodeLabel first label := by
  rw [lines_code, List.mem_append, List.mem_cons, List.mem_cons] at hl
  obtain hl | rfl | rfl | hl := hl
  · simp only [dataLines, List.cons_append, List.nil_append, List.mem_cons, List.mem_map] at hl
    obtain rfl | rfl | rfl | ⟨x, -, rfl⟩ := hl <;> cases hu
  · cases hu
  · exact .inr (.inl (List.mem_singleton.1 hu))
  · obtain ⟨l, rfl⟩ | ⟨i, rfl, hi⟩ := p.textCode_uses first line hl
    · cases hu
    · exact hi label hu

theorem mem_definitions_code (hn : (p.environment.procedures.map Procedure.name).Nodup)
    (ho : (p.code first).obstacle = none) {label : Label} :
    label ∈ definitions (p.code first).lines ↔ p.CodeLabel first label := by
  refine ⟨(code_defines hn first).all label, fun h => ?_⟩
  rw [code_eq] at ho
  have hcovers := (p.textCode_covers first (obstacle_append_eq_none.1 ho).2).2 label h
  rwa [← (p.textCode_uses first).labels_eq, labels_textCode] at hcovers

/-- No label of a program is defined twice. -/
theorem labels_nodup (hn : (p.environment.procedures.map Procedure.name).Nodup) (first : Nat) :
    (labels (p.code first).lines).Nodup := by
  rw [labels_code, List.nodup_append]
  refine ⟨?_, (code_defines hn first).nodup, ?_⟩
  · rw [labels_dataLines]
    have h : (p.globalNames.map Label.variable).Nodup :=
      List.Pairwise.map _ (fun _ _ hne he => hne (Label.variable.inj he)) (sortNames_nodup _)
    simp [h]
  · rintro label hdata _ hcode rfl
    obtain rfl | rfl | ⟨x, -, rfl⟩ := mem_labels_dataLines.1 hdata <;>
      obtain h | h | ⟨q, -, h⟩ | ⟨n, h, -⟩ := (code_defines hn first).all _ hcode <;> cases h

theorem labelCount_code (ho : (p.code first).obstacle = none) :
    (p.code first).labelCount = p.labelCount := by
  rw [code_eq] at ho ⊢
  have hlines (ls : List Line) : (ofLines ls).labelCount = 0 :=
    List.count_eq_zero.2 (by simp [ofLines])
  rw [labelCount_append rfl, hlines, Nat.zero_add]
  exact (p.textCode_covers first (obstacle_append_eq_none.1 ho).2).1

end Program

end Blockwork
