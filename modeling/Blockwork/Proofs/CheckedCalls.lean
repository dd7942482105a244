import Blockwork.Proofs.Obstacles
import Blockwork.Proofs.Placement

/-!
# Programs with code make no wrong calls

There is code for a tree if and only if each of its calls is a call of a declared procedure with the
right number of arguments, and it reads nothing. Code generation looks at the main program and at
the bodies of all procedures, so it has seen every call that a run can come to.

* `Environment.Allows`: the sites that code generation accepts.
* `Program.obstacle_code_eq_none`: a program has code exactly if its sites are allowed.
* `Execution.CallsWell`: an execution ends with no error of calls and reads, and reads nothing.
  `callsWell_steps` says so of the steps at allowed sites.
* `compiled_program_calls_well`: the runs of a program that could be compiled.
-/

namespace Blockwork

open Code

/-! ## What there is code for -/

/-- The calls of declared procedures with one argument for each parameter. Reads are not among the
sites that there is code for. -/
def Environment.Allows (env : Environment) : Site → Prop
  | .call name count => ∃ p, env.getProcedure name = .ok p ∧ p.parameters.length = count
  | .read _ => False

/-- The sites that there is code for are those that are no obstacles. -/
theorem Environment.allows_iff {env : Environment} {site : Site} :
    env.Allows site ↔ env.obstacle? site = none := by
  cases site with
  | read name => simp [Allows, obstacle?]
  | call name count =>
    cases hp : env.getProcedure name with
    | error e => simp [Allows, obstacle?, hp]
    | ok p => by_cases hlen : p.parameters.length = count <;> simp [Allows, obstacle?, hp, hlen]

/-- A program has code if and only if the sites of its tree and of all of its procedures are
allowed. -/
theorem Program.obstacle_code_eq_none (p : Program) (first : Nat) :
    (p.code first).obstacle = none ↔
      (∀ site ∈ Statement.listSites p.tree, p.environment.Allows site) ∧
      ∀ q ∈ p.environment.procedures, ∀ site ∈ Statement.listSites q.body,
        p.environment.Allows site := by
  simp only [Environment.allows_iff, p.obstacle_code, sites, List.findSome?_eq_none_iff,
    List.forall_mem_append, List.forall_mem_flatMap]

/-! ## Runs at allowed sites -/

/-- The errors that come from calls, from declarations and from reads. -/
def RuntimeError.ofCallOrRead : RuntimeError → Bool
  | undefinedProcedure _ | duplicateProcedure _ | arityMismatch .. => true
  | invalidInput _ | endOfInput _ => true
  | undefinedVariable _ | typeMismatch _ | divisionByZero | io _ => false

namespace Operator

variable {op : Operator} {a b : Value} {e : RuntimeError}

theorem asInteger_ofCallOrRead (h : a.asInteger op = .error e) : e.ofCallOrRead = false := by
  cases a with
  | integer n => cases h
  | boolean c => cases h; rfl

theorem onIntegers_ofCallOrRead {f : Int32 → Int32 → Value} (h : op.onIntegers f a b = .error e) :
    e.ofCallOrRead = false := by
  unfold onIntegers at h
  cases ha : a.asInteger op with
  | error e₁ => rw [ha] at h; cases h; exact asInteger_ofCallOrRead ha
  | ok m =>
    cases hb : b.asInteger op with
    | error e₂ => rw [ha, hb] at h; cases h; exact asInteger_ofCallOrRead hb
    | ok n => rw [ha, hb] at h; cases h

theorem apply_ofCallOrRead (h : op.apply a b = .error e) : e.ofCallOrRead = false := by
  cases op
  case equal | notEqual => cases h
  case divide =>
    cases ha : a.asInteger .divide with
    | error e₁ => rw [apply, ha] at h; cases h; exact asInteger_ofCallOrRead ha
    | ok m =>
      cases hb : b.asInteger .divide with
      | error e₂ => rw [apply, ha, hb] at h; cases h; exact asInteger_ofCallOrRead hb
      | ok n =>
        by_cases hn : n = 0
        · rw [apply, ha, hb, hn] at h; cases h; rfl
        · simp [apply, ha, hb, hn, bind, Except.bind, pure, Except.pure] at h
  all_goals exact onIntegers_ofCallOrRead h

end Operator

namespace Execution

open Environment

variable {α β : Type} {env : Environment}

/-- In an environment with the given procedures, the execution ends with no error of calls and
reads, and it leaves the input unread. The procedures stay what they are. -/
def CallsWell (env : Environment) (x : Execution α) : Prop :=
  ∀ s : State, s.environment.procedures = env.procedures →
    (∀ e, (x s).1 = .failed e → e.ofCallOrRead = false) ∧
      (x s).2.environment.procedures = env.procedures ∧
      (x s).2.console.input = s.console.input

theorem CallsWell.ofExcept {r : Except RuntimeError α}
    (hr : ∀ e, r = .error e → e.ofCallOrRead = false) : CallsWell env (ofExcept r) := by
  intro s hs
  unfold Execution.ofExcept
  cases r with
  | ok a => exact ⟨nofun, hs, rfl⟩
  | error e => exact ⟨fun e' h => hr e' (by cases h; rfl), hs, rfl⟩

theorem CallsWell.bind {x : Execution α} {f : α → Execution β} (hx : CallsWell env x)
    (hf : ∀ a, CallsWell env (f a)) : CallsWell env (x >>= f) := by
  intro s hs
  obtain ⟨herr, hp, hin⟩ := hx s hs
  obtain ⟨a, t, hs, he⟩ | ⟨e, t, hs, he⟩ | ⟨t, hs, he⟩ := bind_result x f s <;>
    rw [hs] at herr hp hin <;> rw [he]
  · obtain ⟨herr', hp', hin'⟩ := hf a t hp
    exact ⟨herr', hp', hin'.trans hin⟩
  · exact ⟨fun e' h => herr e' (by cases h; rfl), hp, hin⟩
  · exact ⟨nofun, hp, hin⟩

/-- A call with as many values as there are parameters is opened, so what fails is its body. -/
theorem CallsWell.call {p : Procedure} {values : List Value} {body : Execution Unit}
    (hlen : p.parameters.length = values.length) (hb : CallsWell env body) :
    CallsWell env (call p values body) := by
  intro s hs
  obtain ⟨e, he, -⟩ | ⟨inner, outcome, t, hi, ht, hr⟩ := call_result p values body s
  · unfold Environment.enter at he
    rw [if_pos hlen] at he
    cases he
  · have hinner : inner.procedures = env.procedures := by
      obtain ⟨-, rfl⟩ := enter_eq_ok hi
      exact hs
    obtain ⟨herr, hp, hin⟩ := hb { s with environment := inner } hinner
    rw [ht] at herr hp hin
    rw [hr]
    refine ⟨fun e he => ?_, hp, hin⟩
    cases outcome <;> cases he
    exact herr e rfl

/-- The steps at the sites that there is code for, if all procedures have code. -/
theorem callsWell_steps (hbodies : ∀ q ∈ env.procedures,
    ∀ site ∈ Statement.listSites q.body, env.Allows site) :
    Steps (CallsWell env) env.Allows where
  result a := .ofExcept (r := .ok a) nofun
  exhausted s hs := ⟨nofun, hs, rfl⟩
  look name s hs := by
    unfold Execution.ask
    refine CallsWell.ofExcept (fun e h => ?_) s hs
    replace h : s.environment.get name = .error e := h
    unfold Environment.get at h
    split at h <;> cases h
    rfl
  operator op a b := .ofExcept fun e h => Operator.apply_ofCallOrRead h
  bind := .bind
  assign name value s hs := by
    have hset := (Executed.set s.environment name value).procedures
    exact ⟨nofun, hset.trans hs, rfl⟩
  read h := h.elim
  display value s hs := by
    have hdisplay : ∀ e, (s.console.display value).1 = .error e → e.ofCallOrRead = false := by
      intro e h
      unfold Console.display at h
      split at h
      · cases h; rfl
      · unfold Sink.flush at h
        split at h <;> cases h
        rfl
    have hinput : (s.console.display value).2.input = s.console.input := by
      unfold Console.display
      split <;> rfl
    unfold Execution.display
    obtain ⟨herr, hp, hin⟩ := CallsWell.ofExcept hdisplay
      { s with console := (s.console.display value).2 } hs
    exact ⟨herr, hp, hin.trans hinput⟩
  call {name count values body} hallowed hv hlen hb _ := by
    obtain ⟨q, hq, hcount⟩ := hallowed
    have hbody : CallsWell env (body q) := hb q (hbodies q (getProcedure_eq_ok hq).1)
    intro s hs
    rw [ask_bind ((getProcedure_congr hs name).trans hq)]
    obtain ⟨herr, hp, hin⟩ := hv s hs
    -- The values are as many as the arguments only if they are done, so `CallsWell.bind`, which
    -- forgets where the values come from, does not apply.
    obtain ⟨vs, t, ht, he⟩ | ⟨e, t, ht, he⟩ | ⟨t, ht, he⟩ :=
      bind_result values (fun vs => Execution.call q vs (body q)) s <;>
      rw [ht] at herr hp hin <;> rw [he]
    · have hvalues : q.parameters.length = vs.length := by rw [hcount, hlen s vs t ht]
      obtain ⟨herr', hp', hin'⟩ := CallsWell.call hvalues hbody t hp
      exact ⟨herr', hp', hin'.trans hin⟩
    · exact ⟨fun e' h => herr e' (by cases h; rfl), hp, hin⟩
    · exact ⟨nofun, hp, hin⟩

end Execution

/-- If a program could be compiled, then none of its runs ends with an undefined or a twice declared
procedure, with a wrong number of arguments, or with input that is missing or no number. No run
reads any input. -/
theorem compiled_program_calls_well {p : Program} {e e' : Emitter}
    (h : e.compile p = (.ok (), e')) (fuel : Nat) (console : Console) :
    (∀ error, (p.run fuel console).1 = .failed error → error.ofCallOrRead = false) ∧
      (p.run fuel console).2.console.input = console.input := by
  obtain ⟨ho, -⟩ := Emitter.compile_eq_ok h
  obtain ⟨htree, hbodies⟩ := (p.obstacle_code_eq_none e.nextLabel).1 ho
  obtain ⟨herr, -, hinput⟩ := ((Execution.callsWell_steps hbodies).run fuel).2.2.2 p.tree htree
    ⟨p.environment, console⟩ rfl
  exact ⟨herr, hinput⟩

/-! ## A program with calls -/

/-- A recursive procedure, a call inside a call, and a variable that has no value. -/
def countdownText : String :=
  "procedure half(n) assign half = n / 2 end " ++
    "procedure steps(n) if n > 1 do assign steps = 1 + steps(half(n)) end end " ++
    "display steps(100) display missing"

def countdownTree : List Statement :=
  [.procedure "half" ["n"] [.assign "half" (.binary (.variable "n") .divide (.number 2))],
    .procedure "steps" ["n"] [.branch (.binary (.variable "n") .greater (.number 1))
      [.assign "steps" (.binary (.number 1) .add (.call "steps" [.call "half" [.variable "n"]]))]
      []],
    .display (.call "steps" [.number 100]), .display (.variable "missing")]

def countdownProgram : Program := ⟨countdownTree, .ofTree countdownTree⟩

/-- It can be compiled, and its run ends with the variable that has no value. -/
theorem compiled_program_calls_well_countdown :
    Program.parse countdownText = .ok countdownProgram ∧
    (({} : Emitter).compile countdownProgram).1 = .ok () ∧
    (countdownProgram.run 60 { input := [52, 50, 10] }).1 =
      .failed (.undefinedVariable "missing") ∧
    (countdownProgram.run 60 { input := [52, 50, 10] }).2.console.input = [52, 50, 10] := by
  have ho : (countdownProgram.code 1).obstacle = none := by decide
  obtain ⟨e, hcompile⟩ : ∃ e, ({} : Emitter).compile countdownProgram = (.ok (), e) :=
    Emitter.compile_of_unlimited rfl ho
  obtain ⟨-, hinput⟩ := compiled_program_calls_well hcompile 60 { input := [52, 50, 10] }
  exact ⟨by decide +kernel, by rw [hcompile], by decide +kernel, hinput⟩

end Blockwork
