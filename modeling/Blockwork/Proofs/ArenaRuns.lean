import Blockwork.Proofs.Arena
import Blockwork.Proofs.Callers

/-!
# Runs on an arena

A run does with scopes only what operations on scopes can do, so it can be followed on an arena.
What it keeps is then said of the scopes of the arena by their indices: their links, the calls that
they belong to, and which of them it may change.

* `Environment.Leads`: operations lead from one environment to another. `leads_rules` says so of all
  runs.
* `Arena.Evaluated`, `Arena.Executed`: what the computing of an expression and the executing of a
  statement keep of an arena.
* `run_on_arena`: both for all runs.
* `call_on_arena`: a call from two arenas that agree on the outermost scope.
-/

namespace Blockwork

/-! ## Runs as operations -/

namespace Environment

/-- Some operations lead from one environment to the other. -/
def Leads (env env' : Environment) : Prop :=
  ∃ ops, (history perform env ops).2 = env'

namespace Leads

variable {env env' env'' : Environment}

theorem refl (env : Environment) : Leads env env := ⟨[], rfl⟩

theorem trans (h : Leads env env') (h' : Leads env' env'') : Leads env env'' := by
  obtain ⟨ops, rfl⟩ := h
  obtain ⟨ops', rfl⟩ := h'
  exact ⟨ops ++ ops', history_append env ops ops'⟩

theorem set (env : Environment) (name : String) (value : Value) :
    Leads env (env.set name value) := ⟨[.set name value], rfl⟩

/-- A call opens a scope before its body, and closes it behind it. -/
theorem call {p : Procedure} {values : List Value} {inner : Environment}
    (hi : env.enter p values = .ok inner) (h : Leads inner env') : Leads env env'.leave := by
  have henter : Leads env inner := ⟨[.enter p values], by simp [history, perform, hi]⟩
  exact (henter.trans h).trans ⟨[.leave], rfl⟩

end Leads

end Environment

open Traced

/-- All runs are operations, whatever they come to. -/
theorem leads_rules :
    Rules (fun x => ∀ s : State, s.environment.Leads (x s).state.environment)
      (fun _ _ x => ∀ s : State, s.environment.Leads (x s).state.environment) where
  ask f s := by rw [ask_state]; exact .refl _
  exhausted s := .refl _
  bind hx hf := bind_keeps (R := Environment.Leads) .trans hx hf
  call {name values body} hv hb := by
    refine bind_keeps (R := Environment.Leads) .trans
      (fun s => by rw [ask_state]; exact .refl _) fun p => ?_
    refine bind_keeps (R := Environment.Leads) .trans hv fun vs s => ?_
    obtain ⟨e, -, he⟩ | ⟨inner, r, hi, hr, he⟩ := call_result p vs (body p) s
    · rw [he]
      exact .refl _
    · have h := hb p { s with environment := inner }
      rw [he]
      rw [hr] at h
      exact .call hi h
  compute hx := hx
  sequence hx hf := bind_keeps (R := Environment.Leads) .trans hx hf
  assign {A name value} _ s := .set s.environment name value
  read {A name} s := by
    simp only [Traced.read, record, Execution.read, Execution.ofExcept]
    split <;> exact .refl _
  display {A value} s := by
    simp only [Traced.display, record, Execution.display, Execution.ofExcept]
    split <;> exact .refl _

theorem Expression.leads_evaluate (e : Expression) (fuel : Nat) (s : State) :
    s.environment.Leads (e.evaluate fuel s).2.environment := by
  rw [← Expression.forget_trace]
  exact (leads_rules.trace fuel).1 e s

theorem Statement.leads_execute (st : Statement) (fuel : Nat) (s : State) :
    s.environment.Leads (st.execute fuel s).2.environment := by
  rw [← Statement.forget_trace]
  exact (leads_rules.trace fuel).2.2.1 (fun _ => True) st (fun _ _ => trivial) s

/-! ## Scopes by their indices -/

namespace Arena

/-- The value that the scope with an index has for a name. -/
def value? (a : Arena) (index : Nat) (name : String) : Option Value :=
  a.scopes[index]?.bind fun scope => scope.bindings.get? name

/-- What the computing of an expression keeps. Only the outermost scope may have other values, and
for the same names. -/
structure Evaluated (a a' : Arena) : Prop where
  parents : a'.scopes.map ArenaScope.parent = a.scopes.map ArenaScope.parent
  procedures : a'.scopes.map ArenaScope.procedure = a.scopes.map ArenaScope.procedure
  scopes : ∀ index, index ≠ 0 → a'.scopes[index]? = a.scopes[index]?
  globals : ∀ x, (a'.value? 0 x).isSome = (a.value? 0 x).isSome

/-- What the executing of a statement keeps. -/
structure Executed (a a' : Arena) : Prop where
  parents : a'.scopes.map ArenaScope.parent = a.scopes.map ArenaScope.parent
  procedures : a'.scopes.map ArenaScope.procedure = a.scopes.map ArenaScope.procedure
  /-- Only the outermost scope and the current one may change. -/
  scopes : ∀ index, index ≠ 0 → index ≠ a.current → a'.scopes[index]? = a.scopes[index]?
  /-- Names keep having values. -/
  bound : ∀ index x, (a.value? index x).isSome → (a'.value? index x).isSome
  /-- In a call, the outermost scope gets no new names. -/
  noNewGlobal : a.current ≠ 0 → ∀ x, (a'.value? 0 x).isSome → (a.value? 0 x).isSome

end Arena

namespace Environment

variable {env env' : Environment}

theorem scopes_arena_succ (env : Environment) (index : Nat) :
    env.arena.scopes[index + 1]? = env.frames.reverse[index]?.map Frame.scope := by
  rw [arena, List.getElem?_cons_succ, List.getElem?_map]

theorem isSome_value?_current (env : Environment) (x : String) :
    (env.arena.value? env.frames.length x).isSome = env.current.binds x := by
  rw [Arena.value?, arena_innermost, Option.bind_some, innermost_bindings]
  rfl

theorem parents_arena (env : Environment) : env.arena.scopes.map ArenaScope.parent =
    none :: List.replicate env.frames.length (some 0) := by
  have hparent : ArenaScope.parent ∘ Frame.scope = fun _ => some 0 := rfl
  rw [arena, List.map_cons, List.map_map, hparent, List.map_const', List.length_reverse]

theorem procedures_arena (env : Environment) : env.arena.scopes.map ArenaScope.procedure =
    none :: (env.frames.map Frame.procedure).reverse.map some := by
  rw [arena, List.map_cons, List.map_map, ← List.map_reverse, List.map_map]
  rfl

theorem Evaluated.arena (h : env.Evaluated env') : env.arena.Evaluated env'.arena where
  parents := by rw [parents_arena, parents_arena, h.frames]
  procedures := by rw [procedures_arena, procedures_arena, h.frames]
  scopes index hindex := by
    obtain ⟨i, rfl⟩ := Nat.exists_eq_succ_of_ne_zero hindex
    rw [scopes_arena_succ, scopes_arena_succ, h.frames]
  globals := h.globals

/-- The frames of two environments, seen from the outermost call. -/
theorem Executed.getElem?_reverse (h : env.Executed env') {i : Nat}
    (hi : i + 1 ≠ env.frames.length) : env'.frames.reverse[i]? = env.frames.reverse[i]? := by
  have howners := h.owners
  have houter := h.outer
  generalize env.frames = frames at *
  generalize env'.frames = frames' at *
  cases frames with
  | nil => rw [List.map_eq_nil_iff.1 howners]
  | cons frame outer =>
    cases frames' with
    | nil => cases howners
    | cons frame' outer' =>
      obtain rfl : outer' = outer := houter
      rw [List.length_cons] at hi
      simp only [List.reverse_cons, List.getElem?_append, List.length_reverse]
      split
      · rfl
      · rw [List.getElem?_eq_none (by simp; omega), List.getElem?_eq_none (by simp; omega)]

theorem Executed.length_frames (h : env.Executed env') :
    env'.frames.length = env.frames.length := by
  simpa using congrArg List.length h.owners

theorem Executed.scopes_arena (h : env.Executed env') {index : Nat} (hindex : index ≠ 0)
    (hcurrent : index ≠ env.frames.length) :
    env'.arena.scopes[index]? = env.arena.scopes[index]? := by
  obtain ⟨i, rfl⟩ := Nat.exists_eq_succ_of_ne_zero hindex
  rw [scopes_arena_succ, scopes_arena_succ, h.getElem?_reverse hcurrent]

theorem Executed.arena (h : env.Executed env') : env.arena.Executed env'.arena where
  parents := by rw [parents_arena, parents_arena, h.length_frames]
  procedures := by rw [procedures_arena, procedures_arena, h.owners]
  scopes index hindex hcurrent := h.scopes_arena hindex (current_arena env ▸ hcurrent)
  bound index x hx := by
    by_cases hzero : index = 0
    · subst hzero
      exact h.globals x hx
    by_cases hcurrent : index = env.frames.length
    · rw [hcurrent, isSome_value?_current] at hx
      rw [hcurrent, ← h.length_frames, isSome_value?_current]
      exact h.current x hx
    · rwa [Arena.value?, h.scopes_arena hzero hcurrent]
  noNewGlobal hcurrent := by
    rw [current_arena] at hcurrent
    exact h.noNewGlobal (List.ne_nil_of_length_pos (Nat.pos_of_ne_zero hcurrent))

end Environment

/-! ## Runs -/

/-- Whatever a run comes to, operations on the arena before it lead to the arena behind it, and none
of them is lost. No scope comes or goes, and each keeps its parent and its call. An expression can
only change values in the outermost scope, and a statement also the current scope. -/
theorem run_on_arena (fuel steps : Nat) (s : State) :
    (∀ e : Expression, ∃ ops answers,
      history (Arena.perform (steps + 2)) s.environment.arena ops =
        (answers, (e.evaluate fuel s).2.environment.arena) ∧ .lost ∉ answers ∧
      s.environment.arena.Evaluated (e.evaluate fuel s).2.environment.arena) ∧
    ∀ st : Statement, ∃ ops answers,
      history (Arena.perform (steps + 2)) s.environment.arena ops =
        (answers, (st.execute fuel s).2.environment.arena) ∧ .lost ∉ answers ∧
      s.environment.arena.Executed (st.execute fuel s).2.environment.arena := by
  refine ⟨fun e => ?_, fun st => ?_⟩
  · obtain ⟨ops, hops⟩ := e.leads_evaluate fuel s
    refine ⟨ops, _, ?_, s.environment.lost_not_mem_history ops,
      (Environment.evaluated_evaluate fuel e s).arena⟩
    rw [s.environment.history_arena, hops]
  · obtain ⟨ops, hops⟩ := st.leads_execute fuel s
    refine ⟨ops, _, ?_, s.environment.lost_not_mem_history ops,
      (Environment.executed_execute fuel st s).arena⟩
    rw [s.environment.history_arena, hops]

theorem Execution.evaluated_call (p : Procedure) (values : List Value) {body : Execution Unit}
    (hb : ∀ s : State, s.environment.Executed (body s).2.environment) (s : State) :
    s.environment.Evaluated (call p values body s).2.environment := by
  obtain ⟨e, -, he⟩ | ⟨inner, outcome, t, hi, ht, he⟩ := call_result p values body s
  · rw [he]
    exact .refl _
  · have h := hb { s with environment := inner }
    rw [he]
    rw [ht] at h
    exact h.leave hi

/-- A call from two arenas that agree on the outermost scope, whatever other scopes they have. It
comes to the same from both, with the same console and the same values in the outermost scope, and
no other scope of them is changed. -/
theorem call_on_arena (p : Procedure) (values : List Value) (console : Console)
    {env env' : Environment} (hp : env'.procedures = env.procedures)
    (hg : ∀ x, env'.arena.value? 0 x = env.arena.value? 0 x) (fuel : Nat) :
    let body := Statement.executeAll fuel p.body
    let r := Execution.call p values body ⟨env, console⟩
    let r' := Execution.call p values body ⟨env', console⟩
    r'.1 = r.1 ∧ r'.2.console = r.2.console ∧
      (∀ x, r'.2.environment.arena.value? 0 x = r.2.environment.arena.value? 0 x) ∧
      env.arena.Evaluated r.2.environment.arena ∧
      env'.arena.Evaluated r'.2.environment.arena := by
  intro body r r'
  have hscopes := Statement.executed_executeAll fuel p.body
  obtain ⟨ho, hc, hglobals, -⟩ := Execution.Blind.call p values
    (Statement.blind_executeAll fuel p.body) hscopes ⟨env, console⟩ ⟨env', console⟩ hp hg rfl
  exact ⟨ho, hc, hglobals, (Execution.evaluated_call p values hscopes ⟨env, console⟩).arena,
    (Execution.evaluated_call p values hscopes ⟨env', console⟩).arena⟩

end Blockwork
