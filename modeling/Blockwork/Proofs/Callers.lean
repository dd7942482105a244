import Blockwork.Proofs.Steps

/-!
# A call sees nothing of its callers

What an execution can tell about the environment is the table of procedures, the values of global
variables, and the innermost frame. Two environments that agree on these are alike for it, whatever
else is under way in them. A call opens a frame of its own, so for a call not even the innermost
frame matters.

* `Environment.Alike`: the environments that an execution cannot tell apart; one look-up, one write,
  and opening and closing a call, for two of them.
* `Execution.Blind`: two executions from alike environments come to the same, and to alike
  environments again. `blind_steps` says so of all steps, and hence of all runs.
* `call_ignores_callers`: the same value or error, output, rest of the input and global variables,
  from any two environments with the same procedures and global variables.
-/

namespace Blockwork

namespace Environment

/-- The value that the innermost frame gives to a name. -/
def local? (env : Environment) (name : String) : Option Value :=
  env.frames.head?.bind fun frame => frame.bindings.get? name

/-- Environments that an execution cannot tell apart. -/
structure Alike (env env' : Environment) : Prop where
  procedures : env'.procedures = env.procedures
  globals : ∀ x, env'.globals.get? x = env.globals.get? x
  /-- The innermost calls are calls of the same procedure, or there is none in both. -/
  current : env'.currentProcedure? = env.currentProcedure?
  locals : ∀ x, env'.local? x = env.local? x

namespace Alike

variable {env env' : Environment}

theorem get? (h : Alike env env') (name : String) : env'.get? name = env.get? name := by
  show (env'.local? name).or (env'.globals.get? name) =
    (env.local? name).or (env.globals.get? name)
  rw [h.locals, h.globals]

theorem get (h : Alike env env') (name : String) : env'.get name = env.get name := by
  unfold Environment.get
  rw [h.get?]

theorem getProcedure (h : Alike env env') (name : String) :
    env'.getProcedure name = env.getProcedure name := by
  unfold Environment.getProcedure
  rw [h.procedures]

theorem result (h : Alike env env') : env'.result = env.result := by
  unfold Environment.result
  rw [h.current, funext h.get?]

/-- A write goes to the same scope in both. -/
theorem set (h : Alike env env') (name : String) (value : Value) :
    Alike (env.set name value) (env'.set name value) := by
  obtain ⟨globals, frames, procedures, declared⟩ := env
  obtain ⟨globals', frames', procedures', declared'⟩ := env'
  obtain ⟨hp, hg, hc, hl⟩ := h
  simp only [currentProcedure?, local?] at hp hg hc hl
  cases frames with
  | nil =>
    obtain rfl : frames' = [] := by simpa using hc
    refine ⟨hp, fun x => ?_, rfl, fun x => rfl⟩
    simp only [Environment.set, Bindings.get?_set, hg]
  | cons frame outer =>
    obtain ⟨frame', outer', rfl⟩ : ∃ frame' outer', frames' = frame' :: outer' := by
      cases frames' with
      | nil => simp at hc
      | cons frame' outer' => exact ⟨frame', outer', rfl⟩
    simp only [List.head?_cons, Option.map_some, Option.bind_some, Option.some.injEq] at hc hl
    simp only [Environment.set, hl, hg]
    split
    · refine ⟨hp, fun x => ?_, congrArg some hc, hl⟩
      simp only [Bindings.get?_set, hg]
    · refine ⟨hp, hg, congrArg some hc, fun x => ?_⟩
      simp only [local?, List.head?_cons, Option.bind_some, Bindings.get?_set, hl]

/-- A call is opened in both or in none. The new frame hides the frame below it, so the two
environments need not agree on that. -/
theorem enter (hp : env'.procedures = env.procedures)
    (hg : ∀ x, env'.globals.get? x = env.globals.get? x) (p : Procedure) (values : List Value) :
    (∃ e, env.enter p values = .error e ∧ env'.enter p values = .error e) ∨
    ∃ inner inner', env.enter p values = .ok inner ∧ env'.enter p values = .ok inner' ∧
      Alike inner inner' := by
  unfold Environment.enter
  split
  · exact .inr ⟨_, _, rfl, rfl, hp, hg, rfl, fun x => rfl⟩
  · exact .inl ⟨_, rfl, rfl⟩

/-- After a call, the frames are those of before. -/
theorem leave {final final' : Environment} (h : Alike env env') (hf : Alike final final')
    (hleave : final.leave.frames = env.frames) (hleave' : final'.leave.frames = env'.frames) :
    Alike final.leave final'.leave := by
  refine ⟨hf.procedures, hf.globals, ?_, fun x => ?_⟩
  · have hc := h.current
    unfold currentProcedure? at hc ⊢
    rw [hleave, hleave', hc]
  · have hl := h.locals x
    unfold local? at hl ⊢
    rw [hleave, hleave', hl]

end Alike

end Environment

/-! ## Two executions -/

namespace Execution

open Environment

variable {α β : Type}

/-- From alike environments, the execution comes to the same outcome, the same console and alike
environments. -/
def Blind (x : Execution α) : Prop :=
  ∀ s s' : State, s.environment.Alike s'.environment → s'.console = s.console →
    (x s').1 = (x s).1 ∧ (x s').2.console = (x s).2.console ∧
      (x s).2.environment.Alike (x s').2.environment

theorem Blind.ofExcept (r : Except RuntimeError α) : Blind (ofExcept r) := by
  intro s s' h hc
  unfold Execution.ofExcept
  cases r <;> exact ⟨rfl, hc, h⟩

/-- A look-up that finds the same in alike environments. -/
theorem Blind.ask {f : Environment → Except RuntimeError α}
    (hf : ∀ {env env'}, Alike env env' → f env' = f env) : Blind (ask f) := by
  intro s s' h hc
  unfold Execution.ask
  rw [hf h]
  exact Blind.ofExcept (f s.environment) s s' h hc

theorem Blind.bind {x : Execution α} {f : α → Execution β} (hx : Blind x)
    (hf : ∀ a, Blind (f a)) : Blind (x >>= f) := by
  intro s s' h hc
  obtain ⟨ho, hc₁, h₁⟩ := hx s s' h hc
  obtain ⟨a, t, hs, he⟩ | ⟨e, t, hs, he⟩ | ⟨t, hs, he⟩ := bind_result x f s <;>
    obtain ⟨a', t', hs', he'⟩ | ⟨e', t', hs', he'⟩ | ⟨t', hs', he'⟩ := bind_result x f s' <;>
    rw [hs, hs'] at ho <;> cases ho <;> rw [hs, hs'] at hc₁ h₁ <;> rw [he, he']
  · exact hf a t t' h₁ hc₁
  · exact ⟨rfl, hc₁, h₁⟩
  · exact ⟨rfl, hc₁, h₁⟩

/-- Two calls whose bodies come to the same. The frames that they leave behind are those of before,
so the environments after the calls are alike if those before are. -/
theorem Blind.call (p : Procedure) (values : List Value) {body : Execution Unit}
    (hb : Blind body) (hscopes : ∀ s : State, s.environment.Executed (body s).2.environment)
    (s s' : State) (hp : s'.environment.procedures = s.environment.procedures)
    (hg : ∀ x, s'.environment.globals.get? x = s.environment.globals.get? x)
    (hc : s'.console = s.console) :
    let r := call p values body s
    let r' := call p values body s'
    r'.1 = r.1 ∧ r'.2.console = r.2.console ∧
      (∀ x, r'.2.environment.globals.get? x = r.2.environment.globals.get? x) ∧
      (s.environment.Alike s'.environment → r.2.environment.Alike r'.2.environment) := by
  intro r r'
  obtain ⟨e, he, he'⟩ | ⟨inner, inner', hi, hi', halike⟩ := Alike.enter hp hg p values
  · obtain ⟨_, h, hr⟩ | ⟨_, _, _, h, -⟩ := call_result p values body s <;> cases he.symm.trans h
    obtain ⟨_, h, hr'⟩ | ⟨_, _, _, h, -⟩ := call_result p values body s' <;> cases he'.symm.trans h
    replace hr : r = _ := hr
    replace hr' : r' = _ := hr'
    rw [hr, hr']
    exact ⟨rfl, hc, hg, id⟩
  · obtain ⟨_, h, -⟩ | ⟨_, o, t, h, ht, hr⟩ := call_result p values body s <;>
      cases hi.symm.trans h
    obtain ⟨_, h, -⟩ | ⟨_, o', t', h, ht', hr'⟩ := call_result p values body s' <;>
      cases hi'.symm.trans h
    have hbody := hb { s with environment := inner } { s' with environment := inner' } halike hc
    have hkept := (hscopes { s with environment := inner }).leave hi
    have hkept' := (hscopes { s' with environment := inner' }).leave hi'
    rw [ht, ht'] at hbody
    rw [ht] at hkept
    rw [ht'] at hkept'
    obtain ⟨rfl, hc₁, h₁⟩ := hbody
    replace hr : r = _ := hr
    replace hr' : r' = _ := hr'
    rw [hr, hr', h₁.result]
    exact ⟨rfl, hc₁, h₁.globals, fun hs => hs.leave h₁ hkept.frames hkept'.frames⟩

/-- All steps are blind, whatever calls and reads there are. -/
theorem blind_steps : Steps Blind (fun _ => True) where
  result a := .ofExcept (.ok a)
  exhausted s s' h hc := ⟨rfl, hc, h⟩
  look name := .ask fun h => h.get name
  operator op a b := .ofExcept _
  bind := .bind
  assign name value s s' h hc := ⟨rfl, hc, h.set name value⟩
  read {name} _ s s' h hc := by
    unfold Execution.read
    rw [hc]
    exact Blind.ofExcept (s.console.readInteger name).1 _ _ h rfl
  display value s s' h hc := by
    unfold Execution.display
    rw [hc]
    exact Blind.ofExcept (s.console.display value).1 _ _ h rfl
  call _ hv _ hb hscopes := by
    refine .bind (.ask fun h => h.getProcedure _) fun p => .bind hv fun vs s s' h hc => ?_
    obtain ⟨ho, hc₁, -, h₁⟩ := Blind.call p vs (hb p fun _ _ => trivial) (hscopes p) s s'
      h.procedures h.globals hc
    exact ⟨ho, hc₁, h₁ h⟩

end Execution

theorem Statement.blind_executeAll (fuel : Nat) (ss : List Statement) :
    (Statement.executeAll fuel ss).Blind :=
  (Execution.blind_steps.run fuel).2.2.2 ss fun _ _ => trivial

/-- A call depends on nothing but the procedures, the global variables and the console. Whatever is
under way in two environments that agree on these, the call comes to the same outcome in both, at
each number of levels that it may go down: if it ends in one of them, it ends in the other with the
same value or the same error. The output, the rest of the input and the values of the global
variables are the same, too. -/
theorem call_ignores_callers (p : Procedure) (values : List Value) (console : Console)
    {env env' : Environment} (hp : env'.procedures = env.procedures)
    (hg : ∀ x, env'.globals.get? x = env.globals.get? x) (fuel : Nat) :
    let body := Statement.executeAll fuel p.body
    let r := Execution.call p values body ⟨env, console⟩
    let r' := Execution.call p values body ⟨env', console⟩
    r'.1 = r.1 ∧ r'.2.console = r.2.console ∧
      ∀ x, r'.2.environment.globals.get? x = r.2.environment.globals.get? x := by
  intro body r r'
  obtain ⟨ho, hc, hglobals, -⟩ := Execution.Blind.call p values
    (Statement.blind_executeAll fuel p.body) (Statement.executed_executeAll fuel p.body)
    ⟨env, console⟩ ⟨env', console⟩ hp hg rfl
  exact ⟨ho, hc, hglobals⟩

/-! ## Two calls from inside other calls -/

/-- Looks for a variable that it does not have. -/
def peek : Procedure := ⟨"peek", [], [.assign "peek" (.variable "secret")]⟩

/-- Adds the numbers up to `n` to a global variable, and keeps each of them in a local one. -/
def sumUp : Procedure :=
  ⟨"sumUp", ["n"], [.branch (.binary (.variable "n") .greater (.number 0))
    [.assign "part" (.variable "n"),
      .assign "total" (.binary (.variable "total") .add (.variable "part")),
      .assign "sumUp" (.binary (.variable "part") .add
        (.call "sumUp" [.binary (.variable "n") .subtract (.number 1)]))] []]⟩

/-- No call is under way. -/
def quiet : Environment :=
  { globals := ⟨[("total", .integer 100)]⟩, procedures := [peek, sumUp] }

/-- Two calls are under way. The variables in their frames have the names that `peek` and `sumUp`
use. -/
def busy : Environment :=
  { quiet with frames := [⟨"peek", ⟨[("peek", .integer 0), ("secret", .integer 5)]⟩⟩,
    ⟨"sumUp", ⟨[("sumUp", .integer 8), ("n", .integer 9), ("part", .boolean true)]⟩⟩] }

theorem call_ignores_callers_busy :
    busy.procedures = quiet.procedures ∧
    (∀ x, busy.globals.get? x = quiet.globals.get? x) ∧
    (Execution.call peek [] (Statement.executeAll 9 peek.body) ⟨busy, {}⟩).1 =
      .failed (.undefinedVariable "secret") ∧
    (Execution.call sumUp [.integer 3] (Statement.executeAll 40 sumUp.body) ⟨busy, {}⟩).1 =
      .done (.integer 6) ∧
    (Execution.call sumUp [.integer 3] (Statement.executeAll 40 sumUp.body)
      ⟨busy, {}⟩).2.environment.globals.get? "total" = some (.integer 106) := by
  have hp : busy.procedures = quiet.procedures := rfl
  have hg : ∀ x, busy.globals.get? x = quiet.globals.get? x := fun _ => rfl
  obtain ⟨hpeek, -, -⟩ := call_ignores_callers peek [] {} hp hg 9
  obtain ⟨hsum, -, htotal⟩ := call_ignores_callers sumUp [.integer 3] {} hp hg 40
  refine ⟨hp, hg, hpeek.trans ?_, hsum.trans ?_, (htotal "total").trans ?_⟩ <;>
    decide +kernel

end Blockwork
