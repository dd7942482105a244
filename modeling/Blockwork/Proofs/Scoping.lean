import Blockwork.Proofs.Trace

/-!
# Which scopes a run changes

The scopes of an environment are the outermost level and the frames of the calls under way. The
parent of every frame is the outermost level, so a run may change the values of global variables and
the scope it runs in, and nothing else.

* `Environment.Evaluated`, `Environment.Executed`: what the computing of an expression and the
  executing of a statement keep. Both are transitive, and one write is `Executed.set`.
* `evaluated_executed_rules`: they hold of all runs.
* `execution_keeps_scopes`: the same in terms of `evaluate` and `execute`.
-/

namespace Blockwork

namespace Bindings

/-- A name has a value. -/
def binds (b : Bindings) (name : String) : Bool := (b.get? name).isSome

theorem binds_set (b : Bindings) (name : String) (value : Value) (x : String) :
    (b.set name value).binds x = (decide (x = name) || b.binds x) := by
  simp only [binds, get?_set]
  by_cases h : x = name <;> simp [h]

end Bindings

namespace Environment

/-- The bindings of the innermost scope. -/
def current (env : Environment) : Bindings :=
  match env.frames with
  | [] => env.globals
  | frame :: _ => frame.bindings

/-- What the computing of an expression keeps: it can only change the values of global variables
that have values already. -/
structure Evaluated (env env' : Environment) : Prop where
  procedures : env'.procedures = env.procedures
  declared : env'.declared = env.declared
  frames : env'.frames = env.frames
  globals : ∀ x, env'.globals.binds x = env.globals.binds x

/-- What the executing of a statement keeps. -/
structure Executed (env env' : Environment) : Prop where
  procedures : env'.procedures = env.procedures
  declared : env'.declared = env.declared
  /-- The frames belong to the same calls. -/
  owners : env'.frames.map Frame.procedure = env.frames.map Frame.procedure
  /-- The frames of the callers are what they were. -/
  outer : env'.frames.tail = env.frames.tail
  current : ∀ x, env.current.binds x → env'.current.binds x
  globals : ∀ x, env.globals.binds x → env'.globals.binds x
  /-- A procedure creates no global variable. -/
  noNewGlobal : env.frames ≠ [] → ∀ x, env'.globals.binds x → env.globals.binds x
  /-- A procedure creates a variable of its own only if there is no global variable of that name. -/
  noNewShadow : env.frames ≠ [] → ∀ x, env'.current.binds x →
    env.current.binds x ∨ env.globals.binds x = false

theorem current_congr {env env' : Environment} (hf : env'.frames = env.frames)
    (hg : ∀ x, env'.globals.binds x = env.globals.binds x) (x : String) :
    env'.current.binds x = env.current.binds x := by
  unfold current
  rw [hf]
  split
  · exact hg x
  · rfl

namespace Evaluated

variable {env env' env'' : Environment}

theorem refl (env : Environment) : Evaluated env env := ⟨rfl, rfl, rfl, fun _ => rfl⟩

theorem trans (h : Evaluated env env') (h' : Evaluated env' env'') : Evaluated env env'' where
  procedures := h'.procedures.trans h.procedures
  declared := h'.declared.trans h.declared
  frames := h'.frames.trans h.frames
  globals x := (h'.globals x).trans (h.globals x)

theorem executed (h : Evaluated env env') : Executed env env' where
  procedures := h.procedures
  declared := h.declared
  owners := by rw [h.frames]
  outer := by rw [h.frames]
  current x hx := by rwa [current_congr h.frames h.globals]
  globals x hx := by rwa [h.globals]
  noNewGlobal _ x hx := by rwa [← h.globals]
  noNewShadow _ x hx := .inl (by rwa [current_congr h.frames h.globals] at hx)

end Evaluated

namespace Executed

variable {env env' env'' : Environment}

theorem frames_eq_nil (h : Executed env env') : env'.frames = [] ↔ env.frames = [] := by
  rw [← List.map_eq_nil_iff (f := Frame.procedure), h.owners, List.map_eq_nil_iff]

theorem frames_ne_nil (h : Executed env env') (hf : env.frames ≠ []) : env'.frames ≠ [] :=
  mt h.frames_eq_nil.1 hf

theorem trans (h : Executed env env') (h' : Executed env' env'') : Executed env env'' where
  procedures := h'.procedures.trans h.procedures
  declared := h'.declared.trans h.declared
  owners := h'.owners.trans h.owners
  outer := h'.outer.trans h.outer
  current x hx := h'.current x (h.current x hx)
  globals x hx := h'.globals x (h.globals x hx)
  noNewGlobal hf x hx := h.noNewGlobal hf x (h'.noNewGlobal (h.frames_ne_nil hf) x hx)
  noNewShadow hf x hx := by
    rcases h'.noNewShadow (h.frames_ne_nil hf) x hx with hx | hx
    · exact h.noNewShadow hf x hx
    · right
      cases hg : env.globals.binds x with
      | false => rfl
      | true => rw [h.globals x hg] at hx; cases hx

/-- One write. It goes to the innermost frame unless only a global variable has the name. -/
theorem set (env : Environment) (name : String) (value : Value) :
    Executed env (env.set name value) := by
  obtain ⟨globals, frames, procedures, declared⟩ := env
  cases frames with
  | nil =>
    simp only [Environment.set]
    refine ⟨rfl, rfl, rfl, rfl, fun x hx => ?_, fun x hx => ?_, fun h => absurd rfl h,
      fun h => absurd rfl h⟩
    · simp only [Environment.current] at hx ⊢
      simp [Bindings.binds_set, hx]
    · simp only at hx ⊢
      simp [Bindings.binds_set, hx]
  | cons frame outer =>
    simp only [Environment.set]
    split
    next h =>
      rw [Bool.and_eq_true, Option.isNone_iff_eq_none] at h
      have hb : globals.binds name = true := h.2
      refine ⟨rfl, rfl, rfl, rfl, fun x hx => hx, fun x hx => ?_, fun _ x hx => ?_,
        fun _ x hx => .inl hx⟩
      · simp [Bindings.binds_set, hx]
      · simp only [Bindings.binds_set, Bool.or_eq_true, decide_eq_true_eq] at hx
        rcases hx with rfl | hx
        · exact hb
        · exact hx
    next h =>
      refine ⟨rfl, rfl, rfl, rfl, fun x hx => ?_, fun x hx => hx, fun _ x hx => hx,
        fun _ x hx => ?_⟩
      · simp only [Environment.current] at hx ⊢
        simp [Bindings.binds_set, hx]
      · simp only [Environment.current, Bindings.binds_set, Bool.or_eq_true,
          decide_eq_true_eq] at hx ⊢
        rcases hx with rfl | hx
        · cases hf : frame.bindings.get? x with
          | some v => exact .inl (by simp [Bindings.binds, hf])
          | none =>
            right
            have hg : globals.get? x = none := by simpa [hf] using h
            simp [Bindings.binds, hg]
        · exact .inl hx

/-- After a call, the frame of the callee is gone and the other frames are what they were. -/
theorem leave {p : Procedure} {values : List Value} {inner : Environment}
    (hi : env.enter p values = .ok inner) (h : Executed inner env') : Evaluated env env'.leave := by
  have hl := leave_of_enter hi
  have hne : inner.frames ≠ [] := by
    unfold enter at hi
    split at hi
    · cases hi; simp
    · cases hi
  refine ⟨?_, ?_, ?_, fun x => ?_⟩
  · rw [← hl]; exact h.procedures
  · rw [← hl]; exact h.declared
  · rw [← hl]; exact h.outer
  · rw [← hl]
    show env'.globals.binds x = inner.globals.binds x
    exact Bool.eq_iff_iff.2 ⟨h.noNewGlobal hne x, h.globals x⟩

end Executed

end Environment

/-! ## All runs -/

open Traced

/-- A call leaves only its changes of global variables behind. -/
theorem Environment.evaluated_call {p : Procedure} {values : List Value} {body : Traced Unit}
    (hb : ∀ s : State, s.environment.Executed (body s).state.environment) (s : State) :
    s.environment.Evaluated (call p values body s).state.environment := by
  obtain ⟨e, -, he⟩ | ⟨inner, r, hi, hr, he⟩ := call_result p values body s
  · rw [he]; exact .refl _
  · have h := hb { s with environment := inner }
    rw [he]
    rw [hr] at h
    exact h.leave hi

/-- The relations hold of all runs, whatever they come to. -/
theorem evaluated_executed_rules :
    Rules (fun x => ∀ s : State, s.environment.Evaluated (x s).state.environment)
      (fun _ _ x => ∀ s : State, s.environment.Executed (x s).state.environment) where
  ask f s := by rw [ask_state]; exact .refl _
  exhausted s := .refl _
  bind hx hf := bind_keeps (R := Environment.Evaluated) .trans hx hf
  call {name values body} hv hb := by
    refine bind_keeps (R := Environment.Evaluated) .trans
      (fun s => by rw [ask_state]; exact .refl _) fun p => ?_
    exact bind_keeps (R := Environment.Evaluated) .trans hv fun vs s =>
      Environment.evaluated_call (hb p) s
  compute hx s := (hx s).executed
  sequence hx hf := bind_keeps (R := Environment.Executed) .trans hx hf
  assign {A name value} _ s := .set s.environment name value
  read {A name} s := by
    simp only [Traced.read, record, Execution.read, Execution.ofExcept]
    split <;> exact (Environment.Evaluated.refl _).executed
  display {A value} s := by
    simp only [Traced.display, record, Execution.display, Execution.ofExcept]
    split <;> exact (Environment.Evaluated.refl _).executed

namespace Environment

theorem evaluated_evaluate (fuel : Nat) (e : Expression) (s : State) :
    s.environment.Evaluated (e.evaluate fuel s).2.environment := by
  rw [← Expression.forget_trace]
  exact (evaluated_executed_rules.trace fuel).1 e s

theorem executed_execute (fuel : Nat) (st : Statement) (s : State) :
    s.environment.Executed (st.execute fuel s).2.environment := by
  rw [← Statement.forget_trace]
  exact (evaluated_executed_rules.trace fuel).2.2.1 (fun _ => True) st (fun _ _ => trivial) s

theorem Executed.depth {env env' : Environment} (h : env.Executed env') :
    env'.depth = env.depth := by
  have := congrArg List.length h.owners
  simpa [Environment.depth] using this

end Environment

/-- Whatever a run comes to, it keeps the scopes, the procedures and the declared names, and changes
no more than the values of global variables and, if it is the run of a statement, the innermost
scope. -/
theorem execution_keeps_scopes (fuel : Nat) (s : State) :
    (∀ e : Expression,
      (e.evaluate fuel s).2.environment.depth = s.environment.depth ∧
      s.environment.Evaluated (e.evaluate fuel s).2.environment) ∧
    ∀ st : Statement,
      (st.execute fuel s).2.environment.depth = s.environment.depth ∧
      s.environment.Executed (st.execute fuel s).2.environment := by
  refine ⟨fun e => ?_, fun st => ?_⟩
  · have h := Environment.evaluated_evaluate fuel e s
    exact ⟨h.executed.depth, h⟩
  · have h := Environment.executed_execute fuel st s
    exact ⟨h.depth, h⟩

end Blockwork
