import Mathlib.Data.List.Nodup
import Blockwork.Assembly.Emitter
import Blockwork.Proofs.MoreFuel
import Blockwork.Proofs.Placement

/-!
# Procedures may be declared anywhere

The tree of a program keeps a marker where a procedure is declared. Neither runs nor code depend on
where the markers stand, or on which statements they stand between. A run does not depend on the
order of the declarations either: it finds procedures by their names, which differ. Code does, since
the routines stand in that order.

* `Statement.unmarked`, `Statement.declarations`: the statements without the markers, and what the
  markers declare; `Statement.markedRec` takes both apart.
* `Statement.below_unmarked`, `Statement.unmarked_below`: each marker costs a run some fuel and
  nothing else.
* `Environment.getProcedure_perm`: the order of a table does not matter.
* `Statement.listCode_congr`, `routines_congr`: what code depends on.
* `Program.Rearranged`: two programs that differ in their markers only; `Rearranged.runsBelow`,
  `Rearranged.code`.
* `declarations_anywhere`: the whole, for two source texts.
-/

namespace Blockwork

namespace Statement

/-! ## Markers -/

/-- The statements that declare no procedure. -/
def unmarked (ss : List Statement) : List Statement :=
  ss.filter fun s => s.procedure?.isNone

/-- The declared procedures, in order. -/
def declarations (ss : List Statement) : List Procedure :=
  ss.filterMap procedure?

theorem eq_marker {s : Statement} {p : Procedure} (h : s.procedure? = some p) : s = p.marker := by
  cases s <;> cases h
  rfl

theorem unmarked_marker (p : Procedure) (ss : List Statement) :
    unmarked (p.marker :: ss) = unmarked ss := rfl

theorem unmarked_statement {s : Statement} (h : s.procedure? = none) (ss : List Statement) :
    unmarked (s :: ss) = s :: unmarked ss :=
  List.filter_cons_of_pos (by rw [h]; rfl)

/-- Statements one by one, each of them a marker or not. -/
theorem markedRec {motive : List Statement → Prop} (nil : motive [])
    (marker : ∀ (p : Procedure) ss, motive ss → motive (p.marker :: ss))
    (statement : ∀ (s : Statement) ss, s.procedure? = none → motive ss → motive (s :: ss))
    (ss : List Statement) : motive ss := by
  induction ss with
  | nil => exact nil
  | cons s ss ih =>
    cases h : s.procedure? with
    | none => exact statement s ss h ih
    | some p => exact eq_marker h ▸ marker p ss ih

/-! ## Names -/

theorem listAssigned_unmarked (ss : List Statement) :
    listAssigned (unmarked ss) = listAssigned ss := by
  induction ss using markedRec with
  | nil => rfl
  | marker p ss ih => exact ih
  | statement s ss h ih => rw [unmarked_statement h, listAssigned, listAssigned, ih]

theorem listReferenced_unmarked (ss : List Statement) :
    listReferenced (unmarked ss) = listReferenced ss := by
  induction ss using markedRec with
  | nil => rfl
  | marker p ss ih => exact ih
  | statement s ss h ih => rw [unmarked_statement h, listReferenced, listReferenced, ih]

theorem mem_listVariables {x : String} (ss : List Statement) : x ∈ listVariables ss ↔
    x ∈ listVariables (unmarked ss) ∨ ∃ p ∈ declarations ss, x ∈ p.marker.variables := by
  induction ss using markedRec with
  | nil => simp [unmarked, declarations]
  | marker p ss ih =>
    have hd : declarations (p.marker :: ss) = p :: declarations ss := rfl
    rw [listVariables, List.mem_append, ih, unmarked_marker, hd]
    simp only [List.exists_mem_cons_iff]
    exact or_left_comm
  | statement s ss h ih =>
    have hd : declarations (s :: ss) = declarations ss := List.filterMap_cons_none h
    rw [listVariables, List.mem_append, ih, unmarked_statement h, listVariables,
      List.mem_append, hd, or_assoc]

/-! ## Runs -/

open Execution

theorem below_zero (ss tt : List Statement) (fuel : Nat) :
    Below (executeAll 0 ss) (executeAll fuel tt) := by
  rw [executeAll]
  exact .exhausted ((grows_steps.run fuel).2.2.2 tt fun _ _ => trivial)

/-- A marker takes some fuel and does nothing. -/
theorem executeAll_marker (fuel : Nat) (p : Procedure) (ss : List Statement) :
    executeAll (fuel + 1) (p.marker :: ss) = executeAll fuel ss := by
  rw [executeAll]
  cases fuel with
  | zero => rw [execute, executeAll]; rfl
  | succ fuel => rfl

/-- Without the markers, the same fuel is enough. -/
theorem below_unmarked (ss : List Statement) {fuel fuel' : Nat} (hle : fuel ≤ fuel') :
    Below (executeAll fuel ss) (executeAll fuel' (unmarked ss)) := by
  induction ss using markedRec generalizing fuel fuel' with
  | nil => exact (below_of_le hle).2.2.2 []
  | marker p ss ih =>
    match fuel with
    | 0 => exact below_zero _ _ _
    | fuel + 1 =>
      rw [executeAll_marker]
      exact ih (Nat.le_of_succ_le hle)
  | statement s ss h ih =>
    match fuel, fuel' with
    | 0, _ => exact below_zero _ _ _
    | fuel + 1, fuel' + 1 =>
      replace hle := Nat.le_of_succ_le_succ hle
      rw [unmarked_statement h, executeAll, executeAll]
      exact .bind ((below_of_le hle).2.2.1 s) fun _ => ih hle

/-- With the markers, as much fuel more as there are statements is enough. -/
theorem unmarked_below (ss : List Statement) {fuel fuel' : Nat} (hle : fuel + ss.length ≤ fuel') :
    Below (executeAll fuel (unmarked ss)) (executeAll fuel' ss) := by
  induction ss using markedRec generalizing fuel fuel' with
  | nil => exact (below_of_le hle).2.2.2 []
  | marker p ss ih =>
    rw [List.length_cons] at hle
    match fuel, fuel' with
    | 0, _ => exact below_zero _ _ _
    | fuel + 1, fuel' + 1 =>
      rw [executeAll_marker]
      exact ih (by omega)
  | statement s ss h ih =>
    rw [List.length_cons] at hle
    match fuel, fuel' with
    | 0, _ => exact below_zero _ _ _
    | fuel + 1, fuel' + 1 =>
      rw [unmarked_statement h, executeAll, executeAll]
      exact .bind ((below_of_le (by omega)).2.2.1 s) fun _ => ih (by omega)

end Statement

/-! ## Tables of procedures -/

namespace Environment

/-- The procedure of a name is the one in the table that has the name. -/
theorem getProcedure_eq_ok_iff {env : Environment}
    (hn : (env.procedures.map Procedure.name).Nodup) {name : String} {p : Procedure} :
    env.getProcedure name = .ok p ↔ p ∈ env.procedures ∧ p.name = name := by
  refine ⟨getProcedure_eq_ok, fun ⟨hp, hname⟩ => ?_⟩
  cases h : env.getProcedure name with
  | ok q =>
    obtain ⟨hq, hq'⟩ := getProcedure_eq_ok h
    rw [List.inj_on_of_nodup_map hn hq hp (hq'.trans hname.symm)]
  | error e =>
    unfold getProcedure at h
    split at h
    next => cases h
    next hf => exact absurd (List.find?_eq_none.1 hf p hp) (by simp [hname])

theorem getProcedure_eq_error {env : Environment} {name : String} {e : RuntimeError}
    (h : env.getProcedure name = .error e) : e = .undefinedProcedure name := by
  unfold getProcedure at h
  split at h
  next => cases h
  next => cases h; rfl

/-- The order of a table does not matter, since the names in it differ. -/
theorem getProcedure_perm {env env' : Environment} (hp : env'.procedures.Perm env.procedures)
    (hn : (env.procedures.map Procedure.name).Nodup) (name : String) :
    env'.getProcedure name = env.getProcedure name := by
  have hn' : (env'.procedures.map Procedure.name).Nodup := (hp.map _).nodup_iff.2 hn
  have hiff (q : Procedure) : env'.getProcedure name = .ok q ↔ env.getProcedure name = .ok q := by
    rw [getProcedure_eq_ok_iff hn, getProcedure_eq_ok_iff hn', hp.mem_iff]
  cases h : env.getProcedure name with
  | ok q => exact (hiff q).2 h
  | error e =>
    cases h' : env'.getProcedure name with
    | ok q => rw [(hiff q).1 h'] at h; cases h
    | error e' => rw [getProcedure_eq_error h, getProcedure_eq_error h']

end Environment

/-! ## Code -/

section Code

variable {env env' : Environment}

theorem Scope.checkCall_congr (h : env.Agrees env') (layout : Layout) (name : String)
    (count : Nat) : Scope.checkCall ⟨env', layout⟩ name count =
      Scope.checkCall ⟨env, layout⟩ name count := by
  simp only [Scope.checkCall, h.procedures]

mutual

theorem Expression.code_congr (h : env.Agrees env') (layout : Layout) :
    (e : Expression) → e.code ⟨env', layout⟩ = e.code ⟨env, layout⟩
  | .number _ | .variable _ => rfl
  | .binary left op right => by
    simp only [Expression.code, left.code_congr h layout, right.code_congr h layout]
  | .call name arguments => by
    simp only [Expression.code, Scope.checkCall_congr h,
      Expression.argumentCode_congr h layout arguments]

theorem Expression.argumentCode_congr (h : env.Agrees env') (layout : Layout) :
    (es : List Expression) →
      Expression.argumentCode ⟨env', layout⟩ es = Expression.argumentCode ⟨env, layout⟩ es
  | [] => rfl
  | e :: es => by
    simp only [Expression.argumentCode, e.code_congr h layout,
      Expression.argumentCode_congr h layout es]

end

mutual

/-- Code depends on the environment only through the procedures that it finds. -/
theorem Statement.code_congr (h : env.Agrees env') (layout : Layout) (first : Nat) :
    (s : Statement) → s.code ⟨env', layout⟩ first = s.code ⟨env, layout⟩ first
  | .assign name value => by simp only [Statement.code, value.code_congr h]
  | .block body => Statement.listCode_congr h layout first body
  | .branch condition onTrue onFalse => by
    simp only [Statement.code, branchUnless, condition.code_congr h,
      Statement.listCode_congr h layout _ onTrue, Statement.listCode_congr h layout _ onFalse]
  | .loop condition body => by
    simp only [Statement.code, branchUnless, condition.code_congr h,
      Statement.listCode_congr h layout _ body]
  | .read _ | .procedure .. => rfl
  | .display value => by simp only [Statement.code, value.code_congr h]
  | .return value => value.code_congr h layout

theorem Statement.listCode_congr (h : env.Agrees env') (layout : Layout) (first : Nat) :
    (ss : List Statement) →
      Statement.listCode ⟨env', layout⟩ first ss = Statement.listCode ⟨env, layout⟩ first ss
  | [] => rfl
  | s :: ss => by
    simp only [Statement.listCode, s.code_congr h, Statement.listCode_congr h layout _ ss]

end

theorem routines_congr (h : env.Agrees env') (topLevel : List String) (first : Nat)
    (ps : List Procedure) : routines env' topLevel first ps = routines env topLevel first ps := by
  induction ps generalizing first with
  | nil => rfl
  | cons p ps ih => simp only [routines, Procedure.code, Statement.listCode_congr h, ih]

end Code

namespace Statement

theorem listLabels_unmarked (ss : List Statement) :
    listLabels (unmarked ss) = listLabels ss := by
  induction ss using markedRec with
  | nil => rfl
  | marker p ss ih => exact ih.trans (Nat.zero_add _).symm
  | statement s ss h ih => rw [unmarked_statement h, listLabels, listLabels, ih]

theorem listCode_unmarked (scope : Scope) (first : Nat) (ss : List Statement) :
    listCode scope first (unmarked ss) = listCode scope first ss := by
  induction ss using markedRec generalizing first with
  | nil => rfl
  | marker p ss ih => exact (ih first).trans (Code.empty_append _).symm
  | statement s ss h ih => rw [unmarked_statement h, listCode, listCode, ih]

end Statement

/-! ## Programs -/

namespace Program

open Statement

/-- Programs with the same statements and the same declarations, each of which may stand anywhere
among the statements and the other declarations. -/
structure Rearranged (p q : Program) : Prop where
  statements : unmarked q.tree = unmarked p.tree
  declarations : (declarations q.tree).Perm (declarations p.tree)

variable {source source' : String} {p q : Program}

theorem procedures_of_parse (hp : Program.parse source = .ok p) :
    p.environment.procedures = Statement.declarations p.tree := by
  obtain ⟨declared, he⟩ := environment_of_parse hp
  rw [he]
  rfl

namespace Rearranged

theorem symm (h : Rearranged p q) : Rearranged q p :=
  ⟨h.statements.symm, h.declarations.symm⟩

theorem topLevelNames (h : Rearranged p q) : q.topLevelNames = p.topLevelNames := by
  unfold Program.topLevelNames
  rw [← listAssigned_unmarked, h.statements, listAssigned_unmarked]

theorem environment (h : Rearranged p q) (hp : Program.parse source = .ok p)
    (hq : Program.parse source' = .ok q) : p.environment.Agrees q.environment := by
  have hn := procedures_nodup hp
  obtain ⟨declared, he⟩ := environment_of_parse hp
  obtain ⟨declared', he'⟩ := environment_of_parse hq
  refine ⟨by rw [he, he'], by rw [he, he'], Environment.getProcedure_perm ?_ hn⟩
  rw [he, he']
  exact h.declarations

/-- A run of the other program needs more fuel at most. -/
theorem runsBelow (h : Rearranged p q) (hp : Program.parse source = .ok p)
    (hq : Program.parse source' = .ok q) : RunsBelow p q := by
  intro start fuel
  refine ⟨fuel + q.tree.length, ?_⟩
  have hbelow := (below_unmarked p.tree (Nat.le_refl fuel)).trans
    (h.statements ▸ unmarked_below q.tree (Nat.le_refl (fuel + q.tree.length)))
  exact hbelow.continues _ _ ⟨h.environment hp hq, rfl⟩

theorem mem_declared (h : Rearranged p q) (hp : Program.parse source = .ok p)
    (hq : Program.parse source' = .ok q) (x : String) :
    x ∈ q.environment.declared ↔ x ∈ p.environment.declared := by
  rw [(parse_eq_ok hp).2, (parse_eq_ok hq).2, Environment.mem_declared_ofTree,
    Environment.mem_declared_ofTree, mem_listVariables, mem_listVariables p.tree, h.statements]
  simp only [h.declarations.mem_iff]

/-- The data sections are the same, whatever the order of the declarations. -/
theorem dataLines (h : Rearranged p q) (hp : Program.parse source = .ok p)
    (hq : Program.parse source' = .ok q) : q.dataLines = p.dataLines := by
  have hprocedures : q.environment.procedures.Perm p.environment.procedures := by
    rw [procedures_of_parse hp, procedures_of_parse hq]
    exact h.declarations
  have houter (r : Procedure) : q.outerNames r = p.outerNames r := by
    simp only [outerNames, h.topLevelNames]
  have hreferenced : listReferenced q.tree = listReferenced p.tree := by
    rw [← listReferenced_unmarked, h.statements, listReferenced_unmarked]
  have hglobal : q.globalNames = p.globalNames := by
    refine sortNames_congr fun x => ?_
    simp only [List.mem_append, List.mem_filter, Bool.not_eq_true', List.contains_eq_mem,
      decide_eq_false_iff_not, List.mem_flatMap, h.mem_declared hp hq, hprocedures.mem_iff,
      h.topLevelNames, hreferenced, houter]
  simp only [Program.dataLines, hglobal]

/-- The routines stand in the order of the declarations, so this has to be the same. -/
theorem code (h : Rearranged p q) (hp : Program.parse source = .ok p)
    (hq : Program.parse source' = .ok q)
    (horder : Statement.declarations q.tree = Statement.declarations p.tree) (first : Nat) :
    q.code first = p.code first := by
  have hprocedures : q.environment.procedures = p.environment.procedures := by
    rw [procedures_of_parse hp, procedures_of_parse hq, horder]
  have hmain (scope : Scope) : listCode scope first q.tree = listCode scope first p.tree := by
    rw [← listCode_unmarked, h.statements, listCode_unmarked]
  have hlabels : listLabels q.tree = listLabels p.tree := by
    rw [← listLabels_unmarked, h.statements, listLabels_unmarked]
  unfold Program.code
  rw [h.dataLines hp hq, hmain, listCode_congr (h.environment hp hq), hlabels, h.topLevelNames,
    hprocedures, routines_congr (h.environment hp hq)]

end Rearranged

end Program

/-- Procedures may be declared anywhere, and in any order. The program ends in the same way, with
the same output, the same rest of the input and the same values of variables, or it does not end
and shows the same; if the declarations stand in the same order, its code is the same, too. -/
theorem declarations_anywhere {source source' : String} {p q : Program}
    (hp : Program.parse source = .ok p) (hq : Program.parse source' = .ok q)
    (hstatements : Statement.unmarked q.tree = Statement.unmarked p.tree)
    (hdeclarations : (Statement.declarations q.tree).Perm (Statement.declarations p.tree)) :
    (∀ start outcome console values,
      q.Ends start outcome console values ↔ p.Ends start outcome console values) ∧
    (∀ start bytes, q.Shows start bytes ↔ p.Shows start bytes) ∧
    (Statement.declarations q.tree = Statement.declarations p.tree →
      ∀ e : Emitter, e.compile q = e.compile p) := by
  have h : p.Rearranged q := ⟨hstatements, hdeclarations⟩
  have hpq := h.runsBelow hp hq
  have hqp := h.symm.runsBelow hq hp
  refine ⟨fun _ _ _ _ => ⟨.mono hqp, .mono hpq⟩, fun _ _ => ⟨.mono hqp, .mono hpq⟩,
    fun horder e => ?_⟩
  unfold Emitter.compile
  rw [h.code hp hq horder]

/-! ## Three places for two procedures -/

/-- A program with the declarations in front. -/
def leadingText : String :=
  "PROCEDURE p() assign p = 8 end PROCEDURE q() assign q = p() + 1 end " ++
    "assign x = q() display x"

/-- The second procedure comes first, and both are called before they are declared. -/
def scatteredText : String :=
  "assign x = q() PROCEDURE q() assign q = p() + 1 end display x " ++
    "PROCEDURE p() assign p = 8 end"

/-- The declarations come last, in the order of the first program. -/
def trailingText : String :=
  "assign x = q() display x " ++
    "PROCEDURE p() assign p = 8 end PROCEDURE q() assign q = p() + 1 end"

def eight : Procedure := ⟨"p", [], [.assign "p" (.number 8)]⟩

def nine : Procedure :=
  ⟨"q", [], [.assign "q" (.binary (.call "p" []) .add (.number 1))]⟩

def assignNine : Statement := .assign "x" (.call "q" [])

def displayNine : Statement := .display (.variable "x")

def leadingTree : List Statement := [eight.marker, nine.marker, assignNine, displayNine]

def scatteredTree : List Statement := [assignNine, nine.marker, displayNine, eight.marker]

def trailingTree : List Statement := [assignNine, displayNine, eight.marker, nine.marker]

theorem declarations_anywhere_three :
    (∃ values, Program.Ends ⟨scatteredTree, .ofTree scatteredTree⟩ {} (.done ())
      { output := { written := "9\n".toUTF8 } } values ∧ values "x" = some (.integer 9)) ∧
    ∀ e : Emitter, e.compile ⟨trailingTree, .ofTree trailingTree⟩ =
      e.compile ⟨leadingTree, .ofTree leadingTree⟩ := by
  have hleading : Program.parse leadingText = .ok ⟨leadingTree, .ofTree leadingTree⟩ := by
    decide +kernel
  have hscattered : Program.parse scatteredText = .ok ⟨scatteredTree, .ofTree scatteredTree⟩ := by
    decide +kernel
  have htrailing : Program.parse trailingText = .ok ⟨trailingTree, .ofTree trailingTree⟩ := by
    decide +kernel
  constructor
  · obtain ⟨hends, -, -⟩ :=
      declarations_anywhere hleading hscattered rfl (.swap eight nine [])
    refine ⟨_, (hends _ _ _ _).2 ⟨nofun, 20, rfl, rfl, rfl⟩, by decide +kernel⟩
  · exact (declarations_anywhere hleading htrailing rfl (.refl _)).2.2 rfl

end Blockwork
