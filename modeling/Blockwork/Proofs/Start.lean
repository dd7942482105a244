import Mathlib.Data.List.Induction
import Blockwork.Proofs.Recording

/-!
# What a program starts with

The program of a source text starts with its procedures, whose names differ, and without values.
Which variables are noted as declared depends on where the text mentions them first, but only in
their order.

* `Program.parse_eq_ok`, `Program.environment_of_parse`, `Program.procedures_nodup`.
* `Environment.mem_declared_ofTree`: the declared variables are those of the tree.
-/

namespace Blockwork

namespace Environment

theorem mem_declared_declareVariable {env : Environment} {name x : String} :
    x ∈ (env.declareVariable name).declared ↔ x ∈ env.declared ∨ x = name := by
  unfold declareVariable
  split
  next h =>
    rw [List.contains_iff_mem] at h
    exact ⟨.inl, fun hx => hx.elim id fun hx => hx ▸ h⟩
  next => simp

theorem mem_declared_ofTree {tree : List Statement} {x : String} :
    x ∈ (ofTree tree).declared ↔ x ∈ Statement.listVariables tree := by
  have hfold (names : List String) (env : Environment) :
      x ∈ (names.foldl declareVariable env).declared ↔ x ∈ env.declared ∨ x ∈ names := by
    induction names generalizing env with
    | nil => simp
    | cons name names ih =>
      rw [List.foldl_cons, ih, mem_declared_declareVariable, List.mem_cons, or_assoc]
  simp [ofTree, hfold]

theorem declared_declareVariable (env : Environment) (name : String) :
    (env.declareVariable name).declared =
      env.declared ++ if name ∈ env.declared then [] else [name] := by
  unfold declareVariable
  rw [List.contains_eq_mem]
  by_cases h : name ∈ env.declared <;> simp [h]

/-- Names that are noted already leave out what is noted again, and change nothing else. -/
theorem declared_declareVariables (env : Environment) (names : List String) :
    (names.foldl declareVariable env).declared = env.declared ++
      (names.foldl declareVariable {}).declared.filter (· ∉ env.declared) := by
  induction names using List.reverseRecOn with
  | nil => simp
  | append_singleton names name ih =>
    simp only [List.foldl_append, List.foldl_cons, List.foldl_nil, declared_declareVariable, ih,
      List.filter_append, List.append_assoc]
    by_cases hmem : name ∈ env.declared <;>
      by_cases hmem' : name ∈ (names.foldl declareVariable {}).declared <;> simp [hmem, hmem']

theorem ofTree_eq (tree : List Statement) : ofTree tree =
    { procedures := tree.filterMap Statement.procedure?
      declared := ((Statement.listVariables tree).foldl declareVariable {}).declared } := by
  obtain ⟨declared, h⟩ := declareVariables_eq
    { procedures := tree.filterMap Statement.procedure? } (Statement.listVariables tree)
  have hdeclared := declared_declareVariables
    { procedures := tree.filterMap Statement.procedure? } (Statement.listVariables tree)
  rw [h, List.nil_append, List.filter_eq_self.2 (by simp)] at hdeclared
  rw [ofTree, h, ← hdeclared]

theorem listVariables_append (ss tt : List Statement) : Statement.listVariables (ss ++ tt) =
    Statement.listVariables ss ++ Statement.listVariables tt := by
  induction ss with
  | nil => rfl
  | cons s ss ih => simp only [List.cons_append, Statement.listVariables, ih, List.append_assoc]

/-- One tree after another. -/
theorem ofTree_append (ss tt : List Statement) : ofTree (ss ++ tt) =
    { procedures := (ofTree ss).procedures ++ (ofTree tt).procedures
      declared := (ofTree ss).declared ++
        (ofTree tt).declared.filter (· ∉ (ofTree ss).declared) } := by
  simp only [ofTree_eq, List.filterMap_append, listVariables_append, List.foldl_append,
    declared_declareVariables (List.foldl _ _ _)]

end Environment

namespace Program

variable {source : String} {p : Program}

theorem parse_eq_ok (h : Program.parse source = .ok p) :
    parseTree source = .ok p.tree ∧ p.environment = .ofTree p.tree := by
  rw [Program.parse_eq] at h
  cases ht : parseTree source with
  | error e => rw [ht] at h; cases h
  | ok tree => rw [ht] at h; cases h; exact ⟨rfl, rfl⟩

/-- A program starts with its procedures and without variables. -/
theorem environment_of_parse (h : Program.parse source = .ok p) : ∃ declared,
    p.environment = { procedures := p.tree.filterMap Statement.procedure?, declared } := by
  rw [(parse_eq_ok h).2]
  exact Environment.declareVariables_eq _ _

/-- The procedures of a source text have different names. -/
theorem procedures_nodup (h : Program.parse source = .ok p) :
    (p.environment.procedures.map Procedure.name).Nodup := by
  obtain ⟨declared, he⟩ := environment_of_parse h
  rw [he]
  exact parseTree_nodup (parse_eq_ok h).1

end Program

end Blockwork
