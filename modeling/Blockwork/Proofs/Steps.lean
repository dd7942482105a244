import Blockwork.Proofs.Scoping

/-!
# From steps to runs

A property of executions holds of all runs of trees if it holds of single steps and if putting steps
together keeps it. Calls and reads are the steps that a tree may be restricted in, so a property may
need that each of them is allowed. A call runs the body of a procedure, which is no part of the tree
and has calls and reads of its own.

* `Site`, `Expression.sites`, `Statement.sites`: the calls and reads of a tree, its calls with the
  numbers of their arguments.
* `Execution.bind_result`, `Execution.call_result`: what two steps and what a call come to.
* `Steps`: what it takes for a property; `Steps.run`: it holds of the runs of trees whose sites are
  allowed.
-/

namespace Blockwork

/-! ## Sites -/

/-- A place in a tree where a run calls a procedure or reads a number. -/
inductive Site where
  | call (name : String) (count : Nat)
  | read (name : String)
  deriving DecidableEq, Repr

mutual

/-- The calls in an expression. -/
def Expression.sites : Expression → List Site
  | .number _ | .variable _ => []
  | .binary left _ right => left.sites ++ right.sites
  | .call name arguments => .call name arguments.length :: Expression.listSites arguments

/-- The calls in a list of expressions. -/
def Expression.listSites : List Expression → List Site
  | [] => []
  | e :: es => e.sites ++ Expression.listSites es

end

mutual

/-- The calls and reads in a statement. The body of a declared procedure has its own. -/
def Statement.sites : Statement → List Site
  | .assign _ value | .display value | .return value => value.sites
  | .block body => Statement.listSites body
  | .branch condition onTrue onFalse =>
    condition.sites ++ Statement.listSites onTrue ++ Statement.listSites onFalse
  | .loop condition body => condition.sites ++ Statement.listSites body
  | .read name => [.read name]
  | .procedure .. => []

/-- The calls and reads in a list of statements. -/
def Statement.listSites : List Statement → List Site
  | [] => []
  | s :: ss => s.sites ++ Statement.listSites ss

end

/-! ## Steps one after the other -/

namespace Execution

variable {α β : Type}

/-- What two steps come to: the second is left out unless the first is done. -/
theorem bind_result (x : Execution α) (f : α → Execution β) (s : State) :
    (∃ a t, x s = (.done a, t) ∧ (x >>= f) s = f a t) ∨
    (∃ e t, x s = (.failed e, t) ∧ (x >>= f) s = (.failed e, t)) ∨
    ∃ t, x s = (.exhausted, t) ∧ (x >>= f) s = (.exhausted, t) := by
  have hb : (x >>= f) s = Execution.bind x f s := rfl
  rw [hb, Execution.bind]
  rcases x s with ⟨a | e | _, t⟩
  · exact .inl ⟨a, t, rfl, rfl⟩
  · exact .inr (.inl ⟨e, t, rfl, rfl⟩)
  · exact .inr (.inr ⟨t, rfl, rfl⟩)

/-- If two steps are done, then both of them are. -/
theorem eq_done_of_bind {x : Execution α} {f : α → Execution β} {s t : State} {b : β}
    (h : (x >>= f) s = (.done b, t)) : ∃ a u, x s = (.done a, u) ∧ f a u = (.done b, t) := by
  obtain ⟨a, u, hx, he⟩ | ⟨e, u, -, he⟩ | ⟨u, -, he⟩ := bind_result x f s <;> rw [he] at h
  · exact ⟨a, u, hx, h⟩
  · cases h
  · cases h

theorem ask_bind {f : Environment → Except RuntimeError α} {g : α → Execution β} {s : State}
    {a : α} (h : f s.environment = .ok a) : (ask f >>= g) s = g a s := by
  show Execution.bind (ask f) g s = g a s
  simp only [Execution.bind, ask, ofExcept, h]

/-- What a call comes to: its body runs in a new frame, which is closed in any case. -/
theorem call_result (p : Procedure) (values : List Value) (body : Execution Unit) (s : State) :
    (∃ e, s.environment.enter p values = .error e ∧ call p values body s = (.failed e, s)) ∨
    ∃ inner outcome t, s.environment.enter p values = .ok inner ∧
      body { s with environment := inner } = (outcome, t) ∧
      call p values body s = (Traced.callOutcome t.environment.result outcome,
        { t with environment := t.environment.leave }) := by
  rw [call]
  split
  next e he => exact .inl ⟨e, he, rfl⟩
  next inner hi =>
    rcases hb : body { s with environment := inner } with ⟨outcome, t⟩
    refine .inr ⟨inner, outcome, t, hi, hb, ?_⟩
    cases outcome <;> rfl

end Execution

open Execution

/-- As many values as expressions. -/
theorem Expression.length_evaluateAll {fuel : Nat} {es : List Expression} {vs : List Value}
    {s t : State} (h : Expression.evaluateAll fuel es s = (.done vs, t)) :
    vs.length = es.length := by
  induction es generalizing fuel vs s with
  | nil =>
    cases fuel with
    | zero => rw [Expression.evaluateAll] at h; cases h
    | succ fuel => rw [Expression.evaluateAll] at h; cases h; rfl
  | cons e es ih =>
    cases fuel with
    | zero => rw [Expression.evaluateAll] at h; cases h
    | succ fuel =>
      rw [Expression.evaluateAll] at h
      obtain ⟨v, u, -, h⟩ := eq_done_of_bind h
      obtain ⟨ws, u', hws, h⟩ := eq_done_of_bind h
      cases h
      rw [List.length_cons, List.length_cons, ih hws]

/-- The body of a procedure keeps the scopes as every statement does. -/
theorem Statement.executed_executeAll (fuel : Nat) (ss : List Statement) (s : State) :
    s.environment.Executed (Statement.executeAll fuel ss s).2.environment := by
  have h := Environment.executed_execute (fuel + 1) (.block ss) s
  rwa [Statement.execute] at h

/-! ## Properties of runs -/

/-- A property `P` of executions holds of single steps, calls and reads only at allowed sites, and
putting steps together keeps it. -/
structure Steps (P : ∀ {α : Type}, Execution α → Prop) (Allowed : Site → Prop) : Prop where
  result {α : Type} (a : α) : P (pure a : Execution α)
  exhausted {α : Type} : P (Execution.exhausted : Execution α)
  look (name : String) : P (ask fun env => env.get name)
  operator (op : Operator) (a b : Value) : P (ofExcept (op.apply a b))
  bind {α β : Type} {x : Execution α} {f : α → Execution β} :
    P x → (∀ a, P (f a)) → P (x >>= f)
  assign (name : String) (value : Value) : P (Execution.assign name value)
  read {name : String} : Allowed (.read name) → P (Execution.read name)
  display (value : Value) : P (Execution.display value)
  /-- The arguments come before the call, one value for each, and then the body runs, which has the
  property if its own sites are allowed. -/
  call {name : String} {count : Nat} {values : Execution (List Value)}
      {body : Procedure → Execution Unit} :
    Allowed (.call name count) → P values →
    (∀ s vs t, values s = (.done vs, t) → vs.length = count) →
    (∀ p, (∀ site ∈ Statement.listSites p.body, Allowed site) → P (body p)) →
    (∀ p (s : State), s.environment.Executed (body p s).2.environment) →
    P (do
      let p ← ask fun env => env.getProcedure name
      let vs ← values
      Execution.call p vs (body p))

/-- By induction on the number of levels that a run may go down. -/
theorem Steps.run {P : ∀ {α : Type}, Execution α → Prop} {Allowed : Site → Prop}
    (S : Steps P Allowed) (fuel : Nat) :
    (∀ e : Expression, (∀ site ∈ e.sites, Allowed site) → P (e.evaluate fuel)) ∧
    (∀ es, (∀ site ∈ Expression.listSites es, Allowed site) →
      P (Expression.evaluateAll fuel es)) ∧
    (∀ s : Statement, (∀ site ∈ s.sites, Allowed site) → P (s.execute fuel)) ∧
    (∀ ss, (∀ site ∈ Statement.listSites ss, Allowed site) →
      P (Statement.executeAll fuel ss)) := by
  induction fuel with
  | zero =>
    refine ⟨fun e _ => ?_, fun es _ => ?_, fun s _ => ?_, fun ss _ => ?_⟩
    · rw [Expression.evaluate]; exact S.exhausted
    · rw [Expression.evaluateAll]; exact S.exhausted
    · rw [Statement.execute]; exact S.exhausted
    · rw [Statement.executeAll]; exact S.exhausted
  | succ fuel ih =>
    obtain ⟨ihe, ihes, ihs, ihss⟩ := ih
    refine ⟨fun e he => ?_, fun es hes => ?_, fun s hs => ?_, fun ss hss => ?_⟩
    · cases e <;> simp only [Expression.evaluate] <;>
        simp only [Expression.sites, List.forall_mem_append, List.forall_mem_cons] at he
      case number n => exact S.result _
      case «variable» name => exact S.look name
      case binary left op right =>
        exact S.bind (ihe left he.1) fun a => S.bind (ihe right he.2) fun b => S.operator op a b
      case call name arguments =>
        exact S.call he.1 (ihes arguments he.2) (fun _ _ _ => Expression.length_evaluateAll)
          (fun p => ihss p.body) fun p => Statement.executed_executeAll fuel p.body
    · cases es <;> simp only [Expression.evaluateAll] <;>
        simp only [Expression.listSites, List.forall_mem_append] at hes
      case nil => exact S.result _
      case cons e es =>
        exact S.bind (ihe e hes.1) fun v => S.bind (ihes es hes.2) fun vs => S.result _
    · -- The case of a loop needs the hypothesis for the whole loop, so it is kept as it is.
      have hloop := ihs s hs
      cases s <;> simp only [Statement.execute] <;>
        simp only [Statement.sites, List.forall_mem_append, List.forall_mem_cons] at hs
      case assign name value => exact S.bind (ihe value hs) fun v => S.assign name v
      case block body => exact ihss body hs
      case branch condition onTrue onFalse =>
        refine S.bind (ihe condition hs.1.1) fun v => ihss _ ?_
        split
        · exact hs.1.2
        · exact hs.2
      case loop condition body =>
        refine S.bind (ihe condition hs.1) fun v => ?_
        split
        · exact S.bind (ihss body hs.2) fun _ => hloop
        · exact S.result _
      case read name => exact S.bind (S.read hs.1) fun n => S.assign name _
      case display value => exact S.bind (ihe value hs) fun v => S.display v
      case «return» value => exact S.bind (ihe value hs) fun v => S.result _
      case procedure => exact S.result _
    · cases ss <;> simp only [Statement.executeAll] <;>
        simp only [Statement.listSites, List.forall_mem_append] at hss
      case nil => exact S.result _
      case cons s ss => exact S.bind (ihs s hss.1) fun _ => ihss ss hss.2

end Blockwork
