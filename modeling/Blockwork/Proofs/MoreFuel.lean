import Blockwork.Proofs.Emission
import Blockwork.Proofs.Steps

/-!
# Runs with more fuel

A run that comes to an end does the same with more fuel. A run that is exhausted has done the first
part of what it does with more fuel. It is enough that the two runs start from environments with the
same values whose tables of procedures find the same; the tables themselves may differ.

* `Environment.Agrees`, `State.Agrees`: where the two runs start, and where they end.
* `State.Extends`, `Execution.Grows`: output is only added to; `Execution.grows_steps`.
* `Execution.Continues`, `Execution.Below`: the second of two executions goes on where the first one
  may be exhausted.
* `below_of_le`: so it is with more fuel.
* `Program.Ends`, `Program.Shows`: what a program does, whatever the fuel. `Program.Ends.unique`
  says that it ends in one way only, and `Program.Ends.mono`, `Program.Shows.mono` compare two
  programs.
-/

namespace Blockwork

/-! ## Environments -/

namespace Environment

/-- Environments with the same values and the same calls under way, whose tables of procedures find
the same. -/
structure Agrees (env env' : Environment) : Prop where
  globals : env'.globals = env.globals
  frames : env'.frames = env.frames
  procedures : ∀ name, env'.getProcedure name = env.getProcedure name

namespace Agrees

variable {env env' env'' : Environment}

theorem refl (env : Environment) : Agrees env env := ⟨rfl, rfl, fun _ => rfl⟩

theorem trans (h : Agrees env env') (h' : Agrees env' env'') : Agrees env env'' :=
  ⟨h'.globals.trans h.globals, h'.frames.trans h.frames,
    fun name => (h'.procedures name).trans (h.procedures name)⟩

theorem get? (h : Agrees env env') : env'.get? = env.get? := by
  funext name
  unfold Environment.get?
  rw [h.globals, h.frames]

theorem get (h : Agrees env env') (name : String) : env'.get name = env.get name := by
  unfold Environment.get
  rw [h.get?]

theorem result (h : Agrees env env') : env'.result = env.result := by
  unfold Environment.result currentProcedure?
  rw [h.get?, h.frames]

theorem set (h : Agrees env env') (name : String) (value : Value) :
    Agrees (env.set name value) (env'.set name value) := by
  obtain ⟨globals, frames, procedures, declared⟩ := env
  obtain ⟨globals', frames', procedures', declared'⟩ := env'
  obtain ⟨hg, hf, hp⟩ := h
  obtain rfl : globals' = globals := hg
  obtain rfl : frames' = frames := hf
  cases frames' with
  | nil => exact ⟨rfl, rfl, hp⟩
  | cons frame outer =>
    simp only [Environment.set]
    split <;> exact ⟨rfl, rfl, hp⟩

theorem leave (h : Agrees env env') : Agrees env.leave env'.leave :=
  ⟨h.globals, congrArg List.tail h.frames, h.procedures⟩

/-- A call is opened in both or in none. -/
theorem enter (h : Agrees env env') (p : Procedure) (values : List Value) :
    (∃ e, env.enter p values = .error e ∧ env'.enter p values = .error e) ∨
    ∃ inner inner', env.enter p values = .ok inner ∧ env'.enter p values = .ok inner' ∧
      Agrees inner inner' := by
  unfold Environment.enter
  split
  · exact .inr ⟨_, _, rfl, rfl, h.globals, congrArg (newFrame p values :: ·) h.frames,
      h.procedures⟩
  · exact .inl ⟨_, rfl, rfl⟩

end Agrees

end Environment

/-! ## States -/

namespace State

/-- States with the same console whose environments agree. -/
structure Agrees (s t : State) : Prop where
  environment : s.environment.Agrees t.environment
  console : t.console = s.console

theorem Agrees.refl (s : State) : Agrees s s := ⟨.refl _, rfl⟩

theorem Agrees.trans {s t u : State} (h : Agrees s t) (h' : Agrees t u) : Agrees s u :=
  ⟨h.environment.trans h'.environment, h'.console.trans h.console⟩

/-- The output of the first state is the beginning of that of the second. -/
def Extends (s t : State) : Prop :=
  ∃ more, t.console.output.written = s.console.output.written ++ more

theorem Extends.of_eq {s t : State}
    (h : t.console.output.written = s.console.output.written) : Extends s t :=
  ⟨ByteArray.empty, by rw [h, ByteArray.append_empty]⟩

theorem Agrees.output {s t : State} (h : Agrees s t) : Extends s t :=
  .of_eq (by rw [h.console])

theorem Extends.trans {s t u : State} (h : Extends s t) (h' : Extends t u) : Extends s u := by
  obtain ⟨a, ha⟩ := h
  obtain ⟨b, hb⟩ := h'
  exact ⟨a ++ b, by rw [hb, ha, ByteArray.append_assoc]⟩

end State

namespace Execution

open State

variable {α β : Type}

/-! ## Output is only added to -/

/-- The execution keeps the output that there is. -/
def Grows (x : Execution α) : Prop :=
  ∀ s, Extends s (x s).2

theorem Grows.ofExcept (r : Except RuntimeError α) : Grows (ofExcept r) := by
  intro s
  unfold Execution.ofExcept
  split <;> exact .of_eq rfl

theorem Grows.ask (f : Environment → Except RuntimeError α) : Grows (ask f) :=
  fun s => Grows.ofExcept (f s.environment) s

theorem Grows.bind {x : Execution α} {f : α → Execution β} (hx : Grows x)
    (hf : ∀ a, Grows (f a)) : Grows (x >>= f) := by
  intro s
  have h := hx s
  obtain ⟨a, t, hs, he⟩ | ⟨e, t, hs, he⟩ | ⟨t, hs, he⟩ := bind_result x f s <;>
    rw [hs] at h <;> rw [he]
  · exact h.trans (hf a t)
  · exact h
  · exact h

theorem Grows.call (p : Procedure) (values : List Value) {body : Execution Unit}
    (hb : Grows body) : Grows (call p values body) := by
  intro s
  obtain ⟨e, -, he⟩ | ⟨inner, outcome, t, -, ht, he⟩ := call_result p values body s
  · rw [he]
    exact .of_eq rfl
  · have h := hb { s with environment := inner }
    rw [ht] at h
    rw [he]
    exact h

theorem Grows.read (name : String) : Grows (read name) := by
  intro s
  have h : (s.console.readInteger name).2.output = s.console.output := by
    unfold Console.readInteger
    split <;> rfl
  exact (Extends.of_eq (by rw [h])).trans (Grows.ofExcept (s.console.readInteger name).1
    { s with console := (s.console.readInteger name).2 })

theorem Grows.display (value : Value) : Grows (display value) := by
  intro s
  obtain ⟨more, -, h, -⟩ := s.console.output.written_write (value.text ++ "\n")
  have hc : (s.console.display value).2.output.written = s.console.output.written ++ more := by
    unfold Console.display
    split
    next hw => rw [hw] at h; exact h
    next hw => rw [hw] at h; exact h
  exact Extends.trans ⟨more, hc⟩ (Grows.ofExcept (s.console.display value).1
    { s with console := (s.console.display value).2 })

/-- All steps keep the output, whatever calls and reads there are. -/
theorem grows_steps : Steps Grows (fun _ => True) where
  result a := .ofExcept (.ok a)
  exhausted _ := .of_eq rfl
  look _ := .ask _
  operator _ _ _ := .ofExcept _
  bind := .bind
  assign _ _ _ := .of_eq rfl
  read _ := .read _
  display := .display
  call _ hv _ hb _ := .bind (.ask _) fun p => .bind hv fun vs =>
    .call p vs (hb p fun _ _ => trivial)

/-! ## Two executions -/

/-- The second result is the first one, or the first one is that of an exhausted run, whose output
is a beginning of the second. -/
inductive Continues : Outcome α × State → Outcome α × State → Prop
  | same {o : Outcome α} {s t : State} : Agrees s t → Continues (o, s) (o, t)
  | further {s : State} {r : Outcome α × State} : Extends s r.2 → Continues (.exhausted, s) r

namespace Continues

variable {r r' r'' : Outcome α × State}

/-- A run that is not exhausted is the whole run. -/
theorem agrees (h : Continues r r') (hne : r.1 ≠ .exhausted) : r'.1 = r.1 ∧ Agrees r.2 r'.2 := by
  cases h with
  | same hst => exact ⟨rfl, hst⟩
  | further => exact absurd rfl hne

theorem output (h : Continues r r') : Extends r.2 r'.2 := by
  cases h with
  | same hst => exact hst.output
  | further hs => exact hs

theorem trans (h : Continues r r') (h' : Continues r' r'') : Continues r r'' := by
  cases h with
  | same hst =>
    cases h' with
    | same hst' => exact .same (hst.trans hst')
    | further ht => exact .further (hst.output.trans ht)
  | further hs => exact .further (hs.trans h'.output)

end Continues

/-- From states that agree, the second execution comes to the same as the first one, or goes on
where the first one is exhausted. -/
structure Below (x y : Execution α) : Prop where
  grows : Grows y
  continues : ∀ s t : State, Agrees s t → Continues (x s) (y t)

theorem Below.trans {x y z : Execution α} (h : Below x y) (h' : Below y z) : Below x z :=
  ⟨h'.grows, fun s t hst => (h.continues s s (.refl s)).trans (h'.continues s t hst)⟩

/-- An exhausted execution is below all that keep the output. -/
theorem Below.exhausted {y : Execution α} (hy : Grows y) : Below exhausted y :=
  ⟨hy, fun _ t hst => .further (hst.output.trans (hy t))⟩

theorem continues_ofExcept (r : Except RuntimeError α) {s t : State} (h : Agrees s t) :
    Continues (ofExcept r s) (ofExcept r t) := by
  unfold Execution.ofExcept
  split <;> exact .same h

theorem Below.ofExcept (r : Except RuntimeError α) : Below (ofExcept r) (ofExcept r) :=
  ⟨.ofExcept r, fun _ _ => continues_ofExcept r⟩

theorem Below.pure (a : α) : Below (Pure.pure a : Execution α) (Pure.pure a) :=
  .ofExcept (.ok a)

/-- A look-up that finds the same in environments that agree. -/
theorem Below.ask {f : Environment → Except RuntimeError α}
    (hf : ∀ {env env' : Environment}, env.Agrees env' → f env' = f env) :
    Below (ask f) (ask f) := by
  refine ⟨.ask f, fun s t hst => ?_⟩
  unfold Execution.ask
  rw [hf hst.environment]
  exact continues_ofExcept _ hst

theorem Below.bind {x y : Execution α} {f g : α → Execution β} (hxy : Below x y)
    (hfg : ∀ a, Below (f a) (g a)) : Below (x >>= f) (y >>= g) := by
  refine ⟨.bind hxy.grows fun a => (hfg a).grows, fun s t hst => ?_⟩
  have h := hxy.continues s t hst
  show Continues (Execution.bind x f s) (Execution.bind y g t)
  unfold Execution.bind
  generalize x s = r at h
  generalize y t = r' at h
  cases h with
  | @same o s t hst =>
    cases o with
    | done a => exact (hfg a).continues s t hst
    | failed e => exact .same hst
    | exhausted => exact .same hst
  | further hs =>
    obtain ⟨a | e | _, t⟩ := r'
    · exact .further (hs.trans ((hfg a).grows t))
    · exact .further hs
    · exact .further hs

theorem Below.assign (name : String) (value : Value) :
    Below (assign name value) (assign name value) :=
  ⟨grows_steps.assign name value,
    fun _ _ hst => .same ⟨hst.environment.set name value, hst.console⟩⟩

theorem Below.read (name : String) : Below (read name) (read name) := by
  refine ⟨.read name, fun s t hst => ?_⟩
  unfold Execution.read
  rw [hst.console]
  exact continues_ofExcept _ ⟨hst.environment, rfl⟩

theorem Below.display (value : Value) : Below (display value) (display value) := by
  refine ⟨.display value, fun s t hst => ?_⟩
  unfold Execution.display
  rw [hst.console]
  exact continues_ofExcept _ ⟨hst.environment, rfl⟩

theorem Below.call (p : Procedure) (values : List Value) {x y : Execution Unit}
    (hxy : Below x y) : Below (call p values x) (call p values y) := by
  refine ⟨.call p values hxy.grows, fun s t hst => ?_⟩
  unfold Execution.call
  obtain ⟨e, hs, ht⟩ | ⟨inner, inner', hs, ht, hinner⟩ := hst.environment.enter p values
  · rw [hs, ht]
    exact .same hst
  · rw [hs, ht]
    have h := hxy.continues { s with environment := inner } { t with environment := inner' }
      ⟨hinner, hst.console⟩
    dsimp only
    generalize x { s with environment := inner } = r at h
    generalize y { t with environment := inner' } = r' at h
    cases h with
    | @same o s t hst =>
      have hleft : Agrees { s with environment := s.environment.leave }
          { t with environment := t.environment.leave } := ⟨hst.environment.leave, hst.console⟩
      cases o with
      | done _ => exact hst.environment.result ▸ .same hleft
      | failed e => exact .same hleft
      | exhausted => exact .same hleft
    | further hs =>
      obtain ⟨_ | e | _, t⟩ := r' <;> exact .further hs

end Execution

/-! ## All runs -/

open Execution

/-- By induction on the smaller fuel. -/
theorem below_of_le {fuel fuel' : Nat} (hle : fuel ≤ fuel') :
    (∀ e : Expression, Below (e.evaluate fuel) (e.evaluate fuel')) ∧
    (∀ es, Below (Expression.evaluateAll fuel es) (Expression.evaluateAll fuel' es)) ∧
    (∀ s : Statement, Below (s.execute fuel) (s.execute fuel')) ∧
    (∀ ss, Below (Statement.executeAll fuel ss) (Statement.executeAll fuel' ss)) := by
  induction fuel generalizing fuel' with
  | zero =>
    obtain ⟨hge, hges, hgs, hgss⟩ := grows_steps.run fuel'
    refine ⟨fun e => ?_, fun es => ?_, fun s => ?_, fun ss => ?_⟩
    · rw [Expression.evaluate]; exact .exhausted (hge e fun _ _ => trivial)
    · rw [Expression.evaluateAll]; exact .exhausted (hges es fun _ _ => trivial)
    · rw [Statement.execute]; exact .exhausted (hgs s fun _ _ => trivial)
    · rw [Statement.executeAll]; exact .exhausted (hgss ss fun _ _ => trivial)
  | succ fuel ih =>
    obtain ⟨fuel', rfl⟩ : ∃ n, fuel' = n + 1 := ⟨fuel' - 1, by omega⟩
    obtain ⟨ihe, ihes, ihs, ihss⟩ := ih (Nat.le_of_succ_le_succ hle)
    refine ⟨fun e => ?_, fun es => ?_, fun s => ?_, fun ss => ?_⟩
    · cases e <;> simp only [Expression.evaluate]
      case number n => exact .pure _
      case «variable» name => exact .ask fun h => h.get name
      case binary left op right =>
        exact .bind (ihe left) fun a => .bind (ihe right) fun b => .ofExcept _
      case call name arguments =>
        exact .bind (.ask fun h => h.procedures name) fun p =>
          .bind (ihes arguments) fun vs => .call p vs (ihss p.body)
    · cases es <;> simp only [Expression.evaluateAll]
      case nil => exact .pure _
      case cons e es => exact .bind (ihe e) fun v => .bind (ihes es) fun vs => .pure _
    · have hloop := ihs s
      cases s <;> simp only [Statement.execute]
      case assign name value => exact .bind (ihe value) fun v => .assign name v
      case block body => exact ihss body
      case branch condition onTrue onFalse => exact .bind (ihe condition) fun v => ihss _
      case loop condition body =>
        refine .bind (ihe condition) fun v => ?_
        split
        · exact .bind (ihss body) fun _ => hloop
        · exact .pure _
      case read name => exact .bind (.read name) fun n => .assign name _
      case display value => exact .bind (ihe value) fun v => .display v
      case «return» value => exact .bind (ihe value) fun v => .pure _
      case procedure => exact .pure _
    · cases ss <;> simp only [Statement.executeAll]
      case nil => exact .pure _
      case cons s ss => exact .bind (ihs s) fun _ => ihss ss

/-! ## Programs -/

namespace Program

/-- With enough fuel, a run of the program comes to an end: its outcome, the console and the values
of the variables at the end. -/
def Ends (p : Program) (start : Console) (outcome : Outcome Unit) (console : Console)
    (values : String → Option Value) : Prop :=
  outcome ≠ .exhausted ∧ ∃ fuel, (p.run fuel start).1 = outcome ∧
    (p.run fuel start).2.console = console ∧ (p.run fuel start).2.environment.get? = values

/-- With enough fuel, the output of a run of the program begins with some bytes. Those of a run
without an end do so, too. -/
def Shows (p : Program) (start : Console) (bytes : ByteArray) : Prop :=
  ∃ fuel more, (p.run fuel start).2.console.output.written = bytes ++ more

/-- Each run of a program is a beginning of a run of another. -/
def RunsBelow (p q : Program) : Prop :=
  ∀ start fuel, ∃ fuel', Continues (p.run fuel start) (q.run fuel' start)

variable {p q : Program} {start : Console}

theorem Ends.mono (h : RunsBelow p q) {outcome : Outcome Unit} {console : Console}
    {values : String → Option Value} (hp : p.Ends start outcome console values) :
    q.Ends start outcome console values := by
  obtain ⟨hne, fuel, ho, hc, hv⟩ := hp
  obtain ⟨fuel', hr⟩ := h start fuel
  obtain ⟨ho', hst⟩ := hr.agrees (ho ▸ hne)
  exact ⟨hne, fuel', ho'.trans ho, hst.console.trans hc, hst.environment.get?.trans hv⟩

theorem Shows.mono (h : RunsBelow p q) {bytes : ByteArray} (hp : p.Shows start bytes) :
    q.Shows start bytes := by
  obtain ⟨fuel, more, hb⟩ := hp
  obtain ⟨fuel', hr⟩ := h start fuel
  obtain ⟨more', hm⟩ := hr.output
  exact ⟨fuel', more ++ more', by rw [hm, hb, ByteArray.append_assoc]⟩

/-- A program that comes to an end does so in one way. -/
theorem Ends.unique {o o' : Outcome Unit} {c c' : Console} {v v' : String → Option Value}
    (h : p.Ends start o c v) (h' : p.Ends start o' c' v') : o' = o ∧ c' = c ∧ v' = v := by
  obtain ⟨hne, fuel, rfl, rfl, rfl⟩ := h
  obtain ⟨hne', fuel', rfl, rfl, rfl⟩ := h'
  -- Both runs are what they are with the larger fuel.
  have hle {a b : Nat} (hab : a ≤ b) : Continues (p.run a start) (p.run b start) :=
    ((below_of_le hab).2.2.2 p.tree).continues _ _ (.refl _)
  obtain ⟨ho, hst⟩ := (hle (Nat.le_max_left fuel fuel')).agrees hne
  obtain ⟨ho', hst'⟩ := (hle (Nat.le_max_right fuel fuel')).agrees hne'
  exact ⟨ho'.symm.trans ho, hst'.console.symm.trans hst.console,
    hst'.environment.get?.symm.trans hst.environment.get?⟩

end Program

end Blockwork
