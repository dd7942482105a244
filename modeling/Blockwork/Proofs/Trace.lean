import Blockwork.Execution
import Blockwork.Tree.Names

/-!
# Traces of runs

A run gives values to variables, reads lines and shows values. Its trace is the list of these
events, in order, beside the outcome and the final state; it changes neither of them.

* `Event`, `Traced`: the events, and executions that keep a list of them.
* `Expression.trace`, `Statement.trace`: the trees run with their traces, the same way as
  `Expression.evaluate` and `Statement.execute` run them: `Expression.forget_trace`,
  `Statement.forget_trace`.
* `Program.events`: the events of a run of a program.
* `Traced.Rules`: what it takes for a property of steps to hold of all runs (`Rules.trace`). An
  expression and a statement may have different properties, and that of a statement may depend on
  which names it assigns to.
-/

namespace Blockwork

/-! ## Executions with traces -/

/-- What a run does to variables and to its console. -/
inductive Event where
  /-- A variable gets a value; the environment is the one before that. -/
  | write (environment : Environment) (name : String) (value : Value)
  /-- A line is read for a variable. -/
  | read (name : String)
  | display (value : Value)
  deriving DecidableEq

/-- What an execution comes to, and the events on the way. -/
structure Traced.Result (α : Type) where
  outcome : Outcome α
  state : State
  events : List Event

/-- An execution that keeps a list of its events. -/
def Traced (α : Type) : Type := State → Traced.Result α

namespace Traced

variable {α β : Type}

/-- One step after another, with the events of both. -/
protected def bind (x : Traced α) (f : α → Traced β) : Traced β := fun s =>
  match x s with
  | ⟨.done a, s, es⟩ => { f a s with events := es ++ (f a s).events }
  | ⟨.failed e, s, es⟩ => ⟨.failed e, s, es⟩
  | ⟨.exhausted, s, es⟩ => ⟨.exhausted, s, es⟩

instance : Monad Traced where
  pure a s := ⟨.done a, s, []⟩
  bind := Traced.bind

/-- A step whose events are known at its start. -/
def record (x : Execution α) (events : State → List Event) : Traced α := fun s =>
  ⟨(x s).1, (x s).2, events s⟩

/-- A step without events, which depends on the environment only. -/
def ask (f : Environment → Except RuntimeError α) : Traced α :=
  record (Execution.ask f) fun _ => []

def exhausted : Traced α :=
  record Execution.exhausted fun _ => []

def assign (name : String) (value : Value) : Traced Unit :=
  record (Execution.assign name value) fun s => [.write s.environment name value]

def read (name : String) : Traced Int32 :=
  record (Execution.read name) fun _ => [.read name]

def display (value : Value) : Traced Unit :=
  record (Execution.display value) fun _ => [.display value]

/-- The outcome of a call, from the outcome of the body and the result that the body left. -/
def callOutcome (result : Value) : Outcome Unit → Outcome Value
  | .done () => .done result
  | .failed e => .failed e
  | .exhausted => .exhausted

/-- Runs a body in a new frame, with the body's events. -/
def call (p : Procedure) (values : List Value) (body : Traced Unit) : Traced Value := fun s =>
  match s.environment.enter p values with
  | .error e => ⟨.failed e, s, []⟩
  | .ok inner =>
    let r := body { s with environment := inner }
    ⟨callOutcome r.state.environment.result r.outcome,
      { r.state with environment := r.state.environment.leave }, r.events⟩

/-- The execution without its trace. -/
def forget (x : Traced α) : Execution α := fun s => ((x s).outcome, (x s).state)

end Traced

/-! ## Traces of trees -/

open Traced

mutual

/-- `Expression.evaluate` with its trace. -/
def Expression.trace (fuel : Nat) (e : Expression) : Traced Value :=
  match fuel with
  | 0 => exhausted
  | fuel + 1 =>
    match e with
    | .number n => pure (.integer n)
    | .variable name => ask fun env => env.get name
    | .binary left op right => do
      let a ← left.trace fuel
      let b ← right.trace fuel
      ask fun _ => op.apply a b
    | .call name arguments => do
      let p ← ask fun env => env.getProcedure name
      let values ← Expression.traceAll fuel arguments
      call p values (Statement.traceAll fuel p.body)

/-- `Expression.evaluateAll` with its trace. -/
def Expression.traceAll (fuel : Nat) (es : List Expression) : Traced (List Value) :=
  match fuel with
  | 0 => exhausted
  | fuel + 1 =>
    match es with
    | [] => pure []
    | e :: es => do
      let v ← e.trace fuel
      let vs ← Expression.traceAll fuel es
      pure (v :: vs)

/-- `Statement.execute` with its trace. -/
def Statement.trace (fuel : Nat) (s : Statement) : Traced Unit :=
  match fuel with
  | 0 => exhausted
  | fuel + 1 =>
    match s with
    | .assign name value => do
      let v ← value.trace fuel
      assign name v
    | .block body => Statement.traceAll fuel body
    | .branch condition onTrue onFalse => do
      let v ← condition.trace fuel
      Statement.traceAll fuel (if v.isTruthy then onTrue else onFalse)
    | .loop condition body => do
      let v ← condition.trace fuel
      if v.isTruthy then
        Statement.traceAll fuel body
        Statement.trace fuel (.loop condition body)
      else pure ()
    | .read name => do
      let n ← read name
      assign name (.integer n)
    | .display value => do
      let v ← value.trace fuel
      display v
    | .return value => do
      let _ ← value.trace fuel
      pure ()
    | .procedure .. => pure ()

/-- `Statement.executeAll` with its trace. -/
def Statement.traceAll (fuel : Nat) (ss : List Statement) : Traced Unit :=
  match fuel with
  | 0 => exhausted
  | fuel + 1 =>
    match ss with
    | [] => pure ()
    | s :: ss => do
      s.trace fuel
      Statement.traceAll fuel ss

end

namespace Program

/-- A run of a program from its start, with its trace. -/
def trace (fuel : Nat) (p : Program) (console : Console) : Traced.Result Unit :=
  Statement.traceAll fuel p.tree ⟨p.environment, console⟩

/-- The events of a run of a program. -/
def events (fuel : Nat) (p : Program) (console : Console) : List Event :=
  (p.trace fuel console).events

end Program

/-! ## A trace changes nothing -/

namespace Traced

variable {α β : Type}

theorem forget_bind (x : Traced α) (f : α → Traced β) :
    (x >>= f).forget = x.forget >>= fun a => (f a).forget := by
  funext s
  show _ = Execution.bind x.forget (fun a => (f a).forget) s
  show (Traced.bind x f).forget s = _
  simp only [forget, Traced.bind, Execution.bind]
  rcases x s with ⟨a | e | _, t, es⟩ <;> rfl

theorem forget_call (p : Procedure) (values : List Value) (body : Traced Unit) :
    (call p values body).forget = Execution.call p values body.forget := by
  funext s
  simp only [forget, call, Execution.call]
  cases s.environment.enter p values with
  | error e => rfl
  | ok inner =>
    simp only
    cases (body { s with environment := inner }).outcome <;> rfl

end Traced

private theorem forget_trace_all (fuel : Nat) :
    (∀ e : Expression, (e.trace fuel).forget = e.evaluate fuel) ∧
    (∀ es, (Expression.traceAll fuel es).forget = Expression.evaluateAll fuel es) ∧
    (∀ s : Statement, (s.trace fuel).forget = s.execute fuel) ∧
    (∀ ss, (Statement.traceAll fuel ss).forget = Statement.executeAll fuel ss) := by
  induction fuel with
  | zero =>
    refine ⟨fun e => ?_, fun es => ?_, fun s => ?_, fun ss => ?_⟩
    · rw [Expression.trace, Expression.evaluate]; rfl
    · rw [Expression.traceAll, Expression.evaluateAll]; rfl
    · rw [Statement.trace, Statement.execute]; rfl
    · rw [Statement.traceAll, Statement.executeAll]; rfl
  | succ fuel ih =>
    obtain ⟨ihe, ihes, ihs, ihss⟩ := ih
    refine ⟨fun e => ?_, fun es => ?_, fun s => ?_, fun ss => ?_⟩
    · cases e <;> simp only [Expression.trace, Expression.evaluate, forget_bind, forget_call, ihe,
        ihes, ihss] <;> rfl
    · cases es <;> simp only [Expression.traceAll, Expression.evaluateAll, forget_bind, ihe,
        ihes] <;> rfl
    · cases s <;> simp only [Statement.trace, Statement.execute, forget_bind, ihe, ihss]
      case loop condition body =>
        congr 1
        funext v
        split
        · simp only [forget_bind, ihs, ihss]
        · rfl
      all_goals rfl
    · cases ss <;> simp only [Statement.traceAll, Statement.executeAll, forget_bind, ihs, ihss]
      all_goals rfl

theorem Expression.forget_trace (fuel : Nat) (e : Expression) :
    (e.trace fuel).forget = e.evaluate fuel := (forget_trace_all fuel).1 e

theorem Statement.forget_trace (fuel : Nat) (s : Statement) :
    (s.trace fuel).forget = s.execute fuel := (forget_trace_all fuel).2.2.1 s

theorem Program.forget_trace (fuel : Nat) (p : Program) (console : Console) :
    ((p.trace fuel console).outcome, (p.trace fuel console).state) = p.run fuel console :=
  congrFun ((forget_trace_all fuel).2.2.2 p.tree) ⟨p.environment, console⟩

/-! ## Properties of all runs -/

namespace Traced

/-- What two steps come to: the second is left out unless the first is done. -/
theorem bind_result {α β : Type} (x : Traced α) (f : α → Traced β) (s : State) :
    (∃ a t es, x s = ⟨.done a, t, es⟩ ∧
      (x >>= f) s = ⟨(f a t).outcome, (f a t).state, es ++ (f a t).events⟩) ∨
    (∃ e t es, x s = ⟨.failed e, t, es⟩ ∧ (x >>= f) s = ⟨.failed e, t, es⟩) ∨
    ∃ t es, x s = ⟨.exhausted, t, es⟩ ∧ (x >>= f) s = ⟨.exhausted, t, es⟩ := by
  have hb : (x >>= f) s = Traced.bind x f s := rfl
  rw [hb, Traced.bind]
  rcases x s with ⟨a | e | _, t, es⟩
  · exact .inl ⟨a, t, es, rfl, rfl⟩
  · exact .inr (.inl ⟨e, t, es, rfl, rfl⟩)
  · exact .inr (.inr ⟨t, es, rfl, rfl⟩)

/-- Two steps keep a transitive relation between environments if both of them keep it. -/
theorem bind_keeps {α β : Type} {R : Environment → Environment → Prop} {x : Traced α}
    {f : α → Traced β} (trans : ∀ {a b c}, R a b → R b c → R a c)
    (hx : ∀ s, R s.environment (x s).state.environment)
    (hf : ∀ a s, R s.environment (f a s).state.environment) (s : State) :
    R s.environment ((x >>= f) s).state.environment := by
  have hs := hx s
  obtain ⟨a, t, es, h, he⟩ | ⟨e, t, es, h, he⟩ | ⟨t, es, h, he⟩ := bind_result x f s <;>
    rw [h] at hs <;> rw [he]
  · exact trans hs (hf a t)
  · exact hs
  · exact hs

theorem ask_state {α : Type} (f : Environment → Except RuntimeError α) (s : State) :
    (ask f s).state = s := by
  simp only [ask, record, Execution.ask, Execution.ofExcept]
  split <;> rfl

theorem ask_events {α : Type} (f : Environment → Except RuntimeError α) (s : State) :
    (ask f s).events = [] := rfl

theorem ask_bind {α β : Type} {f : Environment → Except RuntimeError α} {g : α → Traced β}
    {s : State} {a : α} (h : f s.environment = .ok a) : (ask f >>= g) s = g a s := by
  show Traced.bind (ask f) g s = g a s
  simp only [Traced.bind, ask, record, Execution.ask, Execution.ofExcept, h, List.nil_append]

/-- What a call comes to: its body runs in a new frame, which is closed in any case. -/
theorem call_result (p : Procedure) (values : List Value) (body : Traced Unit) (s : State) :
    (∃ e, s.environment.enter p values = .error e ∧ call p values body s = ⟨.failed e, s, []⟩) ∨
    ∃ inner r, s.environment.enter p values = .ok inner ∧
      body { s with environment := inner } = r ∧
      call p values body s = ⟨callOutcome r.state.environment.result r.outcome,
        { r.state with environment := r.state.environment.leave }, r.events⟩ := by
  rw [call]
  split
  next e he => exact .inl ⟨e, he, rfl⟩
  next inner hi => exact .inr ⟨inner, _, hi, rfl, rfl⟩

/-- Properties `P` of the runs of expressions and `Q A` of the runs of statements that assign to
names in `A` only. Both hold of single steps, and putting steps together keeps them. -/
structure Rules (P : ∀ {α : Type}, Traced α → Prop)
    (Q : (String → Prop) → ∀ {α : Type}, Traced α → Prop) : Prop where
  ask {α : Type} (f : Environment → Except RuntimeError α) : P (Traced.ask f)
  exhausted {α : Type} : P (Traced.exhausted : Traced α)
  bind {α β : Type} {x : Traced α} {f : α → Traced β} : P x → (∀ a, P (f a)) → P (x >>= f)
  call {name : String} {values : Traced (List Value)} {body : Procedure → Traced Unit} :
    P values → (∀ p, Q (· ∈ Statement.listAssigned p.body) (body p)) →
    P (do
      let p ← Traced.ask fun env => env.getProcedure name
      let vs ← values
      Traced.call p vs (body p))
  /-- A statement may compute an expression. -/
  compute {A : String → Prop} {α : Type} {x : Traced α} : P x → Q A x
  sequence {A : String → Prop} {α β : Type} {x : Traced α} {f : α → Traced β} :
    Q A x → (∀ a, Q A (f a)) → Q A (x >>= f)
  assign {A : String → Prop} {name : String} {value : Value} :
    A name → Q A (Traced.assign name value)
  read {A : String → Prop} {name : String} : Q A (Traced.read name)
  display {A : String → Prop} {value : Value} : Q A (Traced.display value)

namespace Rules

variable {P : ∀ {α : Type}, Traced α → Prop} {Q : (String → Prop) → ∀ {α : Type}, Traced α → Prop}

theorem result (R : Rules P Q) {α : Type} (a : α) : P (pure a : Traced α) :=
  R.ask fun _ => .ok a

theorem trace (R : Rules P Q) (fuel : Nat) :
    (∀ e : Expression, P (e.trace fuel)) ∧
    (∀ es, P (Expression.traceAll fuel es)) ∧
    (∀ (A : String → Prop) (s : Statement), (∀ x ∈ s.assigned, A x) → Q A (s.trace fuel)) ∧
    (∀ (A : String → Prop) (ss : List Statement), (∀ x ∈ Statement.listAssigned ss, A x) →
      Q A (Statement.traceAll fuel ss)) := by
  induction fuel with
  | zero =>
    refine ⟨fun e => ?_, fun es => ?_, fun A s _ => R.compute ?_, fun A ss _ => R.compute ?_⟩
    · rw [Expression.trace]; exact R.exhausted
    · rw [Expression.traceAll]; exact R.exhausted
    · rw [Statement.trace]; exact R.exhausted
    · rw [Statement.traceAll]; exact R.exhausted
  | succ fuel ih =>
    obtain ⟨ihe, ihes, ihs, ihss⟩ := ih
    refine ⟨fun e => ?_, fun es => ?_, fun A s hA => ?_, fun A ss hA => ?_⟩
    · cases e <;> simp only [Expression.trace]
      case number n => exact R.result _
      case «variable» name => exact R.ask _
      case binary left op right =>
        exact R.bind (ihe left) fun a => R.bind (ihe right) fun b => R.ask _
      case call name arguments => exact R.call (ihes arguments) fun p => ihss _ p.body fun _ h => h
    · cases es <;> simp only [Expression.traceAll]
      case nil => exact R.result _
      case cons e es => exact R.bind (ihe e) fun v => R.bind (ihes es) fun vs => R.result _
    · cases s <;> simp only [Statement.trace] <;> simp only [Statement.assigned] at hA
      case assign name value =>
        exact R.sequence (R.compute (ihe value)) fun v => R.assign (hA _ (by simp))
      case block body => exact ihss A body hA
      case branch condition onTrue onFalse =>
        refine R.sequence (R.compute (ihe condition)) fun v => ihss A _ fun x hx => hA x ?_
        split at hx
        · exact List.mem_append_left _ hx
        · exact List.mem_append_right _ hx
      case loop condition body =>
        refine R.sequence (R.compute (ihe condition)) fun v => ?_
        split
        · exact R.sequence (ihss A body hA) fun _ => ihs A _ hA
        · exact R.compute (R.result _)
      case read name => exact R.sequence R.read fun n => R.assign (hA _ (by simp))
      case display value => exact R.sequence (R.compute (ihe value)) fun v => R.display
      case «return» value =>
        exact R.sequence (R.compute (ihe value)) fun v => R.compute (R.result _)
      case procedure => exact R.compute (R.result _)
    · cases ss <;> simp only [Statement.traceAll]
      case nil => exact R.compute (R.result _)
      case cons s ss =>
        simp only [Statement.listAssigned, List.mem_append] at hA
        exact R.sequence (ihs A s fun x hx => hA x (.inl hx)) fun _ =>
          ihss A ss fun x hx => hA x (.inr hx)

end Rules

end Traced

end Blockwork
