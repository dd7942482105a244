import Std.Data.HashMap.Lemmas
import Blockwork.Proofs.Arena
import Blockwork.Proofs.DeclarationOrder

/-!
# Environments with an index of procedures

The procedures of an environment can be kept in a list with an index beside it, which has the place
of each procedure by its name, and the scopes in an arena. Whatever is done with an environment,
the index stays in step with the list, and no look-up leads to a place without a procedure.

* `EnvironmentOperation`, `EnvironmentAnswer`, `session`: what can be done with environments, and
  the answers to operations one after the other. `session_of_simulation` goes from one operation to
  sessions.
* `Transcript.accepted`: the procedures whose declarations were accepted.
* `KeepsProcedures`: a state has these procedures, their names differ, and look-ups and further
  declarations are answered by their names.
* `Environment.act`: the operations on an environment. `Program.environment_eq_session`: the session
  in which a program's environment comes about while its text is read.
* `ProcedureTable`: a list with an index. `ProcedureTable.Coherent` is the invariant that `declare`
  preserves.
* `StoredEnvironment`: an arena and a table. `StoredEnvironment.Stores` is the simulation.
* `procedure_table_coherent`: after each session the accepted procedures are kept, by an environment
  and by its stored form, and both give the same answers.
-/

namespace Blockwork

/-! ## Operations on environments -/

/-- What can be done with an environment. -/
inductive EnvironmentOperation where
  | declare (p : Procedure)
  /-- Looks a procedure up. -/
  | find (name : String)
  | procedures
  /-- Notes that there is a variable of this name. -/
  | mention (name : String)
  | mentioned
  | scope (op : ScopeOperation)

/-- What an operation answers. -/
inductive EnvironmentAnswer where
  | declared (outcome : Except RuntimeError Unit)
  | found (outcome : Except RuntimeError Procedure)
  | procedures (ps : List Procedure)
  | done
  | mentioned (names : List String)
  | scope (answer : ScopeAnswer)
  /-- There is no answer. -/
  | lost

namespace EnvironmentAnswer

def isLost : EnvironmentAnswer → Bool
  | lost | scope .lost => true
  | _ => false

end EnvironmentAnswer

/-- Operations with their answers. -/
abbrev Transcript : Type := List (EnvironmentOperation × EnvironmentAnswer)

namespace Transcript

/-- The procedure of a declaration that was accepted. -/
def accepted? : EnvironmentOperation × EnvironmentAnswer → Option Procedure
  | (.declare p, .declared (.ok ())) => some p
  | _ => none

/-- The procedures whose declarations were accepted, in the order of the declarations. -/
def accepted (transcript : Transcript) : List Procedure :=
  transcript.filterMap accepted?

theorem accepted_cons (entry : EnvironmentOperation × EnvironmentAnswer) (rest : Transcript) :
    accepted (entry :: rest) = (accepted? entry).toList ++ accepted rest := by
  rw [accepted, List.filterMap_cons]
  cases accepted? entry <;> rfl

end Transcript

section

variable {σ τ : Type} {f : σ → EnvironmentOperation → EnvironmentAnswer × σ}
  {g : τ → EnvironmentOperation → EnvironmentAnswer × τ}

/-- Operations, one after the other, with their answers, and the state behind them. -/
def session (f : σ → EnvironmentOperation → EnvironmentAnswer × σ) (s : σ) :
    List EnvironmentOperation → Transcript × σ
  | [] => ([], s)
  | op :: ops =>
    let (answer, s) := f s op
    let (transcript, s) := session f s ops
    ((op, answer) :: transcript, s)

/-- States that stay related, with the same answers to single operations, have the same
sessions. -/
theorem session_of_simulation {R : σ → τ → Prop}
    (step : ∀ s t op, R s t → (g t op).1 = (f s op).1 ∧ R (f s op).2 (g t op).2)
    {s : σ} {t : τ} (h : R s t) (ops : List EnvironmentOperation) :
    (session g t ops).1 = (session f s ops).1 ∧
      R (session f s ops).2 (session g t ops).2 := by
  induction ops generalizing s t with
  | nil => exact ⟨rfl, h⟩
  | cons op ops ih =>
    obtain ⟨hanswer, hnext⟩ := step s t op h
    obtain ⟨hrest, hlast⟩ := ih hnext
    exact ⟨List.cons_eq_cons.2 ⟨congrArg (Prod.mk op) hanswer, hrest⟩, hlast⟩

theorem session_append (s : σ) (ops ops' : List EnvironmentOperation) :
    (session f s (ops ++ ops')).2 = (session f (session f s ops).2 ops').2 := by
  induction ops generalizing s with
  | nil => rfl
  | cons op ops ih => exact ih (f s op).2

/-- What a state says about procedures, if it has these: they differ in their names, a name leads to
the one that has it, and only other names are free for declarations. A rejected declaration leaves
the state as it was. -/
structure KeepsProcedures (f : σ → EnvironmentOperation → EnvironmentAnswer × σ) (s : σ)
    (ps : List Procedure) : Prop where
  listed : f s .procedures = (.procedures ps, s)
  distinct : (ps.map Procedure.name).Nodup
  found : ∀ p ∈ ps, f s (.find p.name) = (.found (.ok p), s)
  missing : ∀ name ∉ ps.map Procedure.name,
    f s (.find name) = (.found (.error (.undefinedProcedure name)), s)
  rejected : ∀ p : Procedure, p.name ∈ ps.map Procedure.name →
    f s (.declare p) = (.declared (.error (.duplicateProcedure p.name)), s)
  accepted : ∀ p : Procedure, p.name ∉ ps.map Procedure.name →
    (f s (.declare p)).1 = .declared (.ok ())

/-- States with the same procedures answer a look-up alike, and stay as they are. -/
theorem KeepsProcedures.find_eq {s : σ} {t : τ} {ps : List Procedure}
    (h : KeepsProcedures f s ps) (h' : KeepsProcedures g t ps) (name : String) :
    ∃ answer, f s (.find name) = (answer, s) ∧ g t (.find name) = (answer, t) := by
  by_cases hname : name ∈ ps.map Procedure.name
  · obtain ⟨p, hp, rfl⟩ := List.mem_map.1 hname
    exact ⟨_, h.found p hp, h'.found p hp⟩
  · exact ⟨_, h.missing name hname, h'.missing name hname⟩

end

/-! ## Sessions with an environment -/

namespace Environment

/-- The operations on an environment. -/
def act (env : Environment) : EnvironmentOperation → EnvironmentAnswer × Environment
  | .declare p =>
    match env.declareProcedure p with
    | .ok env' => (.declared (.ok ()), env')
    | .error e => (.declared (.error e), env)
  | .find name => (.found (env.getProcedure name), env)
  | .procedures => (.procedures env.procedures, env)
  | .mention name => (.done, env.declareVariable name)
  | .mentioned => (.mentioned env.declared, env)
  | .scope op => (.scope (env.perform op).1, (env.perform op).2)

section

variable {env : Environment} {p : Procedure}

theorem declareProcedure_of_mem (h : p.name ∈ env.procedures.map Procedure.name) :
    env.declareProcedure p = .error (.duplicateProcedure p.name) :=
  if_pos (by simpa using h)

theorem declareProcedure_of_not_mem (h : p.name ∉ env.procedures.map Procedure.name) :
    env.declareProcedure p = .ok { env with procedures := env.procedures ++ [p] } :=
  if_neg (by simpa using h)

theorem act_declare_of_mem (h : p.name ∈ env.procedures.map Procedure.name) :
    env.act (.declare p) = (.declared (.error (.duplicateProcedure p.name)), env) := by
  rw [act, declareProcedure_of_mem h]

theorem act_declare_of_not_mem (h : p.name ∉ env.procedures.map Procedure.name) :
    env.act (.declare p) =
      (.declared (.ok ()), { env with procedures := env.procedures ++ [p] }) := by
  rw [act, declareProcedure_of_not_mem h]

theorem getProcedure_of_not_mem {name : String} (h : name ∉ env.procedures.map Procedure.name) :
    env.getProcedure name = .error (.undefinedProcedure name) := by
  cases hget : env.getProcedure name with
  | ok q =>
    obtain ⟨hq, rfl⟩ := getProcedure_eq_ok hget
    exact absurd (List.mem_map_of_mem hq) h
  | error e => rw [getProcedure_eq_error hget]

/-- An environment keeps its procedures, if their names differ. -/
theorem keepsProcedures (h : (env.procedures.map Procedure.name).Nodup) :
    KeepsProcedures act env env.procedures where
  listed := rfl
  distinct := h
  found p hp := by rw [act, (getProcedure_eq_ok_iff h).2 ⟨hp, rfl⟩]
  missing name hname := by rw [act, getProcedure_of_not_mem hname]
  rejected _ := act_declare_of_mem
  accepted _ hp := congrArg Prod.fst (act_declare_of_not_mem hp)

end

variable (env : Environment)

theorem declareVariable_procedures (name : String) :
    (env.declareVariable name).procedures = env.procedures := by
  unfold declareVariable
  split <;> rfl

/-- Scopes come and go without a trace in the procedures and the noted names. -/
theorem perform_procedures_declared (op : ScopeOperation) :
    (env.perform op).2.procedures = env.procedures ∧
      (env.perform op).2.declared = env.declared := by
  cases op with
  | set name value =>
    simp only [perform, Environment.set]
    split
    · exact ⟨rfl, rfl⟩
    · split <;> exact ⟨rfl, rfl⟩
  | enter p values =>
    rw [perform]
    cases h : env.enter p values with
    | ok inner =>
      obtain ⟨-, rfl⟩ := enter_eq_ok h
      exact ⟨rfl, rfl⟩
    | error e => exact ⟨rfl, rfl⟩
  | _ => exact ⟨rfl, rfl⟩

/-- An accepted declaration comes behind the procedures so far. Nothing else changes them. -/
theorem act_procedures (op : EnvironmentOperation) : (env.act op).2.procedures =
    env.procedures ++ (Transcript.accepted? (op, (env.act op).1)).toList := by
  cases op with
  | declare p =>
    by_cases hp : p.name ∈ env.procedures.map Procedure.name
    · rw [act_declare_of_mem hp]
      exact (List.append_nil _).symm
    · rw [act_declare_of_not_mem hp]
      rfl
  | mention name => exact (env.declareVariable_procedures name).trans (List.append_nil _).symm
  | scope op => exact (env.perform_procedures_declared op).1.trans (List.append_nil _).symm
  | _ => exact (List.append_nil _).symm

theorem session_procedures (ops : List EnvironmentOperation) :
    (session act env ops).2.procedures =
      env.procedures ++ (session act env ops).1.accepted := by
  induction ops generalizing env with
  | nil => exact (List.append_nil _).symm
  | cons op ops ih =>
    have hcons : (session act env (op :: ops)).1 =
      (op, (env.act op).1) :: (session act (env.act op).2 ops).1 := rfl
    rw [hcons, Transcript.accepted_cons, ← List.append_assoc, ← act_procedures]
    exact ih (env.act op).2

theorem act_not_isLost (op : EnvironmentOperation) : (env.act op).1.isLost = false := by
  cases op with
  | declare p =>
    rw [act]
    cases env.declareProcedure p <;> rfl
  | scope op =>
    have h := env.lost_not_mem_history [op]
    have hanswer : (env.perform op).1 ≠ .lost := fun heq => h (heq ▸ List.mem_singleton_self _)
    show EnvironmentAnswer.isLost (.scope (env.perform op).1) = false
    cases hop : (env.perform op).1 with
    | lost => exact absurd hop hanswer
    | _ => rfl
  | _ => rfl

theorem session_not_isLost (ops : List EnvironmentOperation) :
    ∀ entry ∈ (session act env ops).1, entry.2.isLost = false := by
  induction ops generalizing env with
  | nil => exact List.forall_mem_nil _
  | cons op ops ih => exact List.forall_mem_cons.2 ⟨env.act_not_isLost op, ih _⟩

theorem session_mention (names : List String) :
    (session act env (names.map .mention)).2 = names.foldl declareVariable env := by
  induction names generalizing env with
  | nil => rfl
  | cons name names ih => exact ih (env.declareVariable name)

end Environment

/-- What is done with an environment while a statement of a program is read. A procedure is declared
behind its body. -/
def Statement.operations (s : Statement) : List EnvironmentOperation :=
  s.variables.map .mention ++ s.procedure?.toList.map .declare

namespace Environment

variable {env : Environment}

theorem session_statement {s : Statement} (h : s.procedure? = none) :
    (session act env s.operations).2 = s.variables.foldl declareVariable env := by
  rw [Statement.operations, h, session_append, session_mention]
  rfl

theorem session_marker {p : Procedure} (h : p.name ∉ env.procedures.map Procedure.name) :
    (session act env p.marker.operations).2 =
      { p.marker.variables.foldl declareVariable env with
        procedures := env.procedures ++ [p] } := by
  rw [← declareVariables_keeps env p.marker.variables] at h ⊢
  rw [Statement.operations, session_append, session_mention]
  exact congrArg Prod.snd (act_declare_of_not_mem h)

/-- Statements whose procedures are all new extend an environment by a session. -/
theorem session_operations {tree : List Statement}
    (h : ((env.procedures ++ tree.filterMap Statement.procedure?).map Procedure.name).Nodup) :
    (session act env (tree.flatMap Statement.operations)).2 = env.extend tree := by
  induction tree using Statement.markedRec generalizing env with
  | nil => exact env.extend_nil.symm
  | marker p ss ih =>
    rw [List.filterMap_cons_some p.procedure?_marker, List.append_cons] at h
    have hp : p.name ∉ env.procedures.map Procedure.name := by
      rw [List.map_append, List.nodup_append', List.map_append, List.nodup_append'] at h
      exact List.disjoint_right.1 h.1.2.2 (List.mem_singleton_self _)
    rw [List.flatMap_cons, session_append, session_marker hp, ih h, extend_marker]
  | statement s ss hs ih =>
    rw [List.filterMap_cons_none hs] at h
    rw [List.flatMap_cons, session_append, session_statement hs, extend_statement env hs]
    exact ih (by rwa [declareVariables_keeps])

end Environment

/-- What the program of a source text starts with comes about in one session, which has the
operations of each statement in their order. -/
theorem Program.environment_eq_session {source : String} {p : Program}
    (h : Program.parse source = .ok p) :
    p.environment = (session Environment.act {} (p.tree.flatMap Statement.operations)).2 := by
  obtain ⟨htree, henv⟩ := Program.parse_eq_ok h
  have hnames : ((({} : Environment).procedures ++
      p.tree.filterMap Statement.procedure?).map Procedure.name).Nodup := parseTree_nodup htree
  rw [henv, ← Environment.extend_empty, Environment.session_operations hnames]

/-! ## Tables with an index -/

/-- Procedures in the order of their declarations, and the place of each by its name. -/
structure ProcedureTable where
  procedures : List Procedure := []
  index : Std.HashMap String Nat := {}

namespace ProcedureTable

variable {t : ProcedureTable} {p : Procedure} {name : String}

def names (t : ProcedureTable) : List String := t.procedures.map Procedure.name

/-- Adds a procedure behind the others, unless the index has its name. -/
def declare (t : ProcedureTable) (p : Procedure) : Except RuntimeError Unit × ProcedureTable :=
  if t.index.contains p.name then (.error (.duplicateProcedure p.name), t)
  else (.ok (), ⟨t.procedures ++ [p], t.index.insert p.name t.procedures.length⟩)

/-- The procedure at the place that the index has for a name. It is lost if there is none at this
place. -/
def find (t : ProcedureTable) (name : String) : Option (Except RuntimeError Procedure) :=
  match t.index[name]? with
  | none => some (.error (.undefinedProcedure name))
  | some place => t.procedures[place]?.map .ok

/-- The index has the place of each name in the list, and no other places. -/
def Coherent (t : ProcedureTable) : Prop :=
  ∀ (name : String) (place : Nat), t.index[name]? = some place ↔ t.names[place]? = some name

namespace Coherent

theorem empty : Coherent {} := by
  intro name place
  simp [names]

theorem contains_iff (h : t.Coherent) : t.index.contains name ↔ name ∈ t.names := by
  rw [Std.HashMap.contains_eq_isSome_getElem?, Option.isSome_iff_exists, List.mem_iff_getElem?]
  exact exists_congr fun place => h name place

/-- The index has one place for a name, so no two places have the same name. -/
theorem nodup (h : t.Coherent) : t.names.Nodup := by
  rw [List.nodup_iff_getElem?_ne_getElem?]
  intro i j hij hj heq
  have hnamej : t.names[j]? = some t.names[j] := List.getElem?_eq_getElem hj
  have hi := (h _ i).2 (heq.trans hnamej)
  have hj' := (h _ j).2 hnamej
  exact absurd (Option.some.inj (hi.symm.trans hj')) (Nat.ne_of_lt hij)

theorem declare_of_mem (h : t.Coherent) (hp : p.name ∈ t.names) :
    t.declare p = (.error (.duplicateProcedure p.name), t) :=
  if_pos (h.contains_iff.2 hp)

theorem declare_of_not_mem (h : t.Coherent) (hp : p.name ∉ t.names) :
    t.declare p =
      (.ok (), ⟨t.procedures ++ [p], t.index.insert p.name t.procedures.length⟩) :=
  if_neg fun hcontains => hp (h.contains_iff.1 hcontains)

/-- A new name has the place behind all others. -/
theorem concat (h : t.Coherent) (hp : p.name ∉ t.names) :
    Coherent ⟨t.procedures ++ [p], t.index.insert p.name t.procedures.length⟩ := by
  intro name place
  have hlength : t.procedures.length = t.names.length := (List.length_map _).symm
  have hnames : names ⟨t.procedures ++ [p], t.index.insert p.name t.procedures.length⟩ =
      t.names ++ [p.name] := List.map_append
  rw [hnames, hlength, Std.HashMap.getElem?_insert, List.getElem?_append]
  by_cases hname : p.name = name
  · subst hname
    have hnew (i : Nat) : t.names[i]? ≠ some p.name := fun hi => hp (List.mem_of_getElem? hi)
    rw [if_pos (beq_self_eq_true _)]
    split
    next hlt => exact iff_of_false (by simpa using Nat.ne_of_gt hlt) (hnew place)
    next hge => simp [List.getElem?_singleton]; omega
  · rw [if_neg (by simpa using hname), h name place]
    split
    next => rfl
    next hge =>
      rw [List.getElem?_eq_none (Nat.le_of_not_lt hge)]
      simp [List.getElem?_singleton, hname]

theorem declare (h : t.Coherent) (p : Procedure) : (t.declare p).2.Coherent := by
  by_cases hp : p.name ∈ t.names
  · rwa [h.declare_of_mem hp]
  · rw [h.declare_of_not_mem hp]
    exact h.concat hp

theorem find_of_mem (h : t.Coherent) (hp : p ∈ t.procedures) : t.find p.name = some (.ok p) := by
  obtain ⟨place, hplace⟩ := List.mem_iff_getElem?.1 hp
  have hname : t.names[place]? = some p.name := by
    rw [names, List.getElem?_map, hplace, Option.map_some]
  rw [find, (h p.name place).2 hname]
  show t.procedures[place]?.map Except.ok = _
  rw [hplace, Option.map_some]

theorem find_of_not_mem (h : t.Coherent) (hname : name ∉ t.names) :
    t.find name = some (.error (.undefinedProcedure name)) := by
  have hindex : t.index[name]? = none := by
    rw [Option.eq_none_iff_forall_ne_some]
    intro place hplace
    exact hname (List.mem_of_getElem? ((h name place).1 hplace))
  rw [find, hindex]

end Coherent

end ProcedureTable

/-! ## Stored environments -/

/-- An environment whose scopes are in an arena and whose procedures have an index. -/
structure StoredEnvironment where
  arena : Arena := {}
  table : ProcedureTable := {}
  declared : List String := []

namespace StoredEnvironment

/-- The operations on a stored environment. A walk in the arena may take a number of steps. -/
def act (steps : Nat) (s : StoredEnvironment) :
    EnvironmentOperation → EnvironmentAnswer × StoredEnvironment
  | .declare p => (.declared (s.table.declare p).1, { s with table := (s.table.declare p).2 })
  | .find name => (((s.table.find name).map .found).getD .lost, s)
  | .procedures => (.procedures s.table.procedures, s)
  | .mention name =>
    (.done, if s.declared.contains name then s else { s with declared := s.declared ++ [name] })
  | .mentioned => (.mentioned s.declared, s)
  | .scope op =>
    (.scope (s.arena.perform steps op).1, { s with arena := (s.arena.perform steps op).2 })

theorem keepsProcedures {s : StoredEnvironment} (h : s.table.Coherent) (steps : Nat) :
    KeepsProcedures (act steps) s s.table.procedures where
  listed := rfl
  distinct := h.nodup
  found p hp := by
    rw [act, h.find_of_mem hp]
    rfl
  missing name hname := by
    rw [act, h.find_of_not_mem hname]
    rfl
  rejected p hp := by rw [act, h.declare_of_mem hp]
  accepted p hp := by rw [act, h.declare_of_not_mem hp]

/-- The stored form of an environment. -/
structure Stores (s : StoredEnvironment) (env : Environment) : Prop where
  arena : s.arena = env.arena
  procedures : s.table.procedures = env.procedures
  coherent : s.table.Coherent
  declared : s.declared = env.declared

namespace Stores

variable {s : StoredEnvironment} {env : Environment}

theorem nodup (h : s.Stores env) : (env.procedures.map Procedure.name).Nodup :=
  h.procedures ▸ h.coherent.nodup

/-- An operation on a stored environment is the operation on the environment. -/
theorem act (h : s.Stores env) (steps : Nat) (op : EnvironmentOperation) :
    (s.act (steps + 2) op).1 = (env.act op).1 ∧
      (s.act (steps + 2) op).2.Stores (env.act op).2 := by
  have hs := s.keepsProcedures h.coherent (steps + 2)
  have henv := Environment.keepsProcedures h.nodup
  rw [← h.procedures] at henv
  cases op with
  | declare p =>
    by_cases hp : p.name ∈ s.table.names
    · rw [hs.rejected p hp, henv.rejected p hp]
      exact ⟨rfl, h⟩
    · refine ⟨(hs.accepted p hp).trans (henv.accepted p hp).symm, ?_⟩
      have hp' : p.name ∉ env.procedures.map Procedure.name := h.procedures ▸ hp
      rw [Environment.act_declare_of_not_mem hp']
      refine ⟨h.arena, ?_, h.coherent.declare p, h.declared⟩
      show (s.table.declare p).2.procedures = env.procedures ++ [p]
      rw [h.coherent.declare_of_not_mem hp, h.procedures]
  | find name =>
    obtain ⟨answer, hfind, hfind'⟩ := hs.find_eq henv name
    rw [hfind, hfind']
    exact ⟨rfl, h⟩
  | procedures => exact ⟨congrArg EnvironmentAnswer.procedures h.procedures, h⟩
  | mention name =>
    refine ⟨rfl, ?_⟩
    simp only [StoredEnvironment.act, Environment.act, Environment.declareVariable, h.declared]
    split
    · exact h
    · exact ⟨h.arena, h.procedures, h.coherent, rfl⟩
  | mentioned => exact ⟨congrArg EnvironmentAnswer.mentioned h.declared, h⟩
  | scope op =>
    obtain ⟨hprocedures, hdeclared⟩ := env.perform_procedures_declared op
    simp only [StoredEnvironment.act, Environment.act, h.arena, env.arena_perform steps op]
    exact ⟨trivial, rfl, h.procedures.trans hprocedures.symm, h.coherent,
      h.declared.trans hdeclared.symm⟩

end Stores

end StoredEnvironment

/-! ## Sessions -/

/-- Whatever is done with an environment, one operation after the other, with calls under way or
without: it keeps the procedures whose declarations were accepted, in order. Each is found by its
name, no other name is, and a declaration of a name that is taken is rejected and changes nothing.
The same holds of the stored form, which gives the same answers: no place in its index is without a
procedure, no walk in its arena takes more than two steps, and so no answer is lost. -/
theorem procedure_table_coherent (ops : List EnvironmentOperation) (steps : Nat) :
    let run := session Environment.act {} ops
    let stored := session (StoredEnvironment.act (steps + 2)) {} ops
    KeepsProcedures Environment.act run.2 run.1.accepted ∧
      stored.1 = run.1 ∧ (∀ entry ∈ run.1, entry.2.isLost = false) ∧
      KeepsProcedures (StoredEnvironment.act (steps + 2)) stored.2 run.1.accepted := by
  intro run stored
  obtain ⟨hanswers, hstores⟩ := session_of_simulation (f := Environment.act)
    (g := StoredEnvironment.act (steps + 2)) (R := fun env s => s.Stores env)
    (fun _ _ op h => h.act steps op) (s := {}) (t := {}) ⟨rfl, rfl, .empty, rfl⟩ ops
  have haccepted : run.2.procedures = run.1.accepted := Environment.session_procedures {} ops
  refine ⟨?_, hanswers, Environment.session_not_isLost {} ops, ?_⟩
  · rw [← haccepted]
    exact Environment.keepsProcedures hstores.nodup
  · rw [← haccepted, ← hstores.procedures]
    exact StoredEnvironment.keepsProcedures hstores.coherent (steps + 2)

/-- A call under way does not free a name. -/
example :
    (session Environment.act {} [.declare ⟨"p", [], []⟩, .scope (.enter ⟨"p", [], []⟩ []),
      .declare ⟨"p", ["n"], []⟩, .find "p"]).1.map Prod.snd =
      [.declared (.ok ()), .scope (.entered (.ok ())),
        .declared (.error (.duplicateProcedure "p")), .found (.ok ⟨"p", [], []⟩)] := rfl

end Blockwork
