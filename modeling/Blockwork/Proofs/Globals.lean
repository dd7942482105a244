import Blockwork.Proofs.Correctness
import Blockwork.Proofs.DataSection

/-!
# Where global variables come from

Only a write outside of calls creates a global variable. So at each point of a run, of one that
fails or never ends just as well, the global variables are among the names that the main program
assigns to. The parser has noted all of these names, and none of them has a place in a frame.

* `GlobalsAlong`: the global variables before and after some events of a run. Each write starts from
  those that the events before it have left, and no other event changes them.
* `Traced.alongEvents_rules`: the events of a run tell all that happens to the global variables;
  `Program.globalsAlong`.
* `GlobalsAlong.split`: a point of a run is a place between its events.
* `globals_at_each_point`: which global variables there can be at such a place.
-/

namespace Blockwork

/-! ## Global variables from event to event -/

/-- The global variables before some events and after them. -/
inductive GlobalsAlong : Bindings → List Event → Bindings → Prop where
  | nil (globals : Bindings) : GlobalsAlong globals [] globals
  | write {env : Environment} {name : String} {value : Value} {events : List Event}
    {globals : Bindings} (h : GlobalsAlong (env.set name value).globals events globals) :
    GlobalsAlong env.globals (.write env name value :: events) globals
  | read {name : String} {events : List Event} {before globals : Bindings}
    (h : GlobalsAlong before events globals) :
    GlobalsAlong before (.read name :: events) globals
  | display {value : Value} {events : List Event} {before globals : Bindings}
    (h : GlobalsAlong before events globals) :
    GlobalsAlong before (.display value :: events) globals

namespace GlobalsAlong

variable {before between after : Bindings} {events more : List Event}

theorem append (h : GlobalsAlong before events between)
    (h' : GlobalsAlong between more after) : GlobalsAlong before (events ++ more) after := by
  induction h with
  | nil => exact h'
  | write _ ih => exact .write (ih h')
  | read _ ih => exact .read (ih h')
  | display _ ih => exact .display (ih h')

/-- Between any two events there are certain global variables. -/
theorem split (h : GlobalsAlong before (events ++ more) after) :
    ∃ between, GlobalsAlong before events between ∧ GlobalsAlong between more after := by
  induction events generalizing before with
  | nil => exact ⟨before, .nil before, h⟩
  | cons event events ih =>
    cases h with
    | write h =>
      obtain ⟨between, hpast, hfuture⟩ := ih h
      exact ⟨between, .write hpast, hfuture⟩
    | read h =>
      obtain ⟨between, hpast, hfuture⟩ := ih h
      exact ⟨between, .read hpast, hfuture⟩
    | display h =>
      obtain ⟨between, hpast, hfuture⟩ := ih h
      exact ⟨between, .display hpast, hfuture⟩

/-- If the next write happens in an environment of a run of the program, or else the run ends in
one, the global variables are names of the main program already. -/
theorem binds_topLevel {p : Program} (h : GlobalsAlong before events after)
    (hevents : ∀ event ∈ events, event.Within p)
    (hafter : ∀ x, after.binds x → x ∈ p.topLevelNames) {x : String} (hx : before.binds x) :
    x ∈ p.topLevelNames := by
  induction h with
  | nil => exact hafter x hx
  | @write env name value events globals h ih =>
    have hwithin : env.Within p := hevents _ List.mem_cons_self
    exact hwithin.globals x hx
  | read h ih => exact ih (List.forall_mem_cons.1 hevents).2 hafter hx
  | display h ih => exact ih (List.forall_mem_cons.1 hevents).2 hafter hx

end GlobalsAlong

/-! ## All runs -/

namespace Traced

variable {α β : Type}

/-- The events of an execution tell all that happens to the global variables. -/
def AlongEvents (x : Traced α) : Prop := ∀ s : State,
  GlobalsAlong s.environment.globals (x s).events (x s).state.environment.globals

theorem AlongEvents.of_silent {x : Traced α} (h : ∀ s, (x s).events = [] ∧
    (x s).state.environment = s.environment) : AlongEvents x := by
  intro s
  obtain ⟨hevents, henv⟩ := h s
  rw [hevents, henv]
  exact .nil _

theorem AlongEvents.bind {x : Traced α} {f : α → Traced β} (hx : AlongEvents x)
    (hf : ∀ a, AlongEvents (f a)) : AlongEvents (x >>= f) := by
  intro s
  have hs := hx s
  obtain ⟨a, t, es, h, he⟩ | ⟨e, t, es, h, he⟩ | ⟨t, es, h, he⟩ := bind_result x f s <;>
    rw [h] at hs <;> rw [he]
  · exact hs.append (hf a t)
  · exact hs
  · exact hs

/-- Opening and closing a call leave the global variables as they are. -/
theorem AlongEvents.call {p : Procedure} {values : List Value} {body : Traced Unit}
    (hb : AlongEvents body) : AlongEvents (Traced.call p values body) := by
  intro s
  obtain ⟨e, -, he⟩ | ⟨inner, r, hi, hr, he⟩ := call_result p values body s
  · rw [he]
    exact .nil _
  · have hs := hb { s with environment := inner }
    obtain ⟨-, rfl⟩ := Environment.enter_eq_ok hi
    rw [hr] at hs
    rw [he]
    exact hs

theorem alongEvents_rules : Rules AlongEvents (fun _ => AlongEvents) where
  ask f := .of_silent fun s => ⟨ask_events f s, by rw [ask_state]⟩
  exhausted := .of_silent fun _ => ⟨rfl, rfl⟩
  bind := .bind
  call hv hb :=
    .bind (.of_silent fun s => ⟨ask_events _ s, by rw [ask_state]⟩) fun p =>
      .bind hv fun _ => .call (hb p)
  compute hx := hx
  sequence := .bind
  assign _ _ := .write (.nil _)
  read {A name} s := by
    simp only [Traced.read, record, Execution.read, Execution.ofExcept]
    split <;> exact .read (.nil _)
  display {A value} s := by
    simp only [Traced.display, record, Execution.display, Execution.ofExcept]
    split <;> exact .display (.nil _)

end Traced

namespace Program

variable {source : String} {p : Program} {x : String}

theorem run_environment (fuel : Nat) (p : Program) (console : Console) :
    (p.run fuel console).2.environment = (p.trace fuel console).state.environment := by
  rw [← forget_trace]

/-- The global variables of a run, from its start to its end. -/
theorem globalsAlong (fuel : Nat) (p : Program) (console : Console) :
    GlobalsAlong p.environment.globals (p.events fuel console)
      (p.run fuel console).2.environment.globals := by
  rw [run_environment]
  exact (Traced.alongEvents_rules.trace fuel).2.2.2 (fun _ => True) p.tree (fun _ _ => trivial)
    ⟨p.environment, console⟩

/-- The environment at the end of a run is one of a run of the program. -/
theorem within_end (hp : Program.parse source = .ok p) (fuel : Nat) (console : Console) :
    (p.run fuel console).2.environment.Within p := by
  have hs := ((Traced.within_rules p).trace fuel).2.2.2 (· ∈ p.topLevelNames) p.tree fun _ h => h
  rw [run_environment]
  exact (hs.events ⟨p.environment, console⟩ (within_start hp) fun _ _ h => h).1

/-- The parser notes the names that the main program assigns to. -/
theorem declared_of_topLevel (hp : Program.parse source = .ok p) (hx : x ∈ p.topLevelNames) :
    x ∈ p.environment.declared :=
  (mem_declared_of_parse hp).2 (.inl (Statement.listAssigned_subset_referenced p.tree x hx))

theorem executed_run (fuel : Nat) (p : Program) (console : Console) :
    p.environment.Executed (p.run fuel console).2.environment :=
  Statement.executed_executeAll fuel p.tree ⟨p.environment, console⟩

/-- No call is under way at the end of a run, so what has a value is a global variable. -/
theorem get?_end (hp : Program.parse source = .ok p) (fuel : Nat) (console : Console) :
    (p.run fuel console).2.environment.get? x =
      (p.run fuel console).2.environment.globals.get? x := by
  obtain ⟨declared, hstart⟩ := environment_of_parse hp
  have hframes : (p.run fuel console).2.environment.frames = [] :=
    (p.executed_run fuel console).frames_eq_nil.2 (by rw [hstart])
  rw [Environment.get?, hframes]
  rfl

end Program

/-- At each point of a run of a source text, however it goes on from there, a global variable is one
of the names that the main program assigns to. So the parser has noted it as declared, and no
procedure has a place for it in its frame. At the end, all names with values are declared. -/
theorem globals_at_each_point {source : String} {p : Program}
    (hp : Program.parse source = .ok p) (fuel : Nat) (console : Console) :
    let final := (p.run fuel console).2.environment
    (∀ past future, p.events fuel console = past ++ future → ∃ globals,
      GlobalsAlong p.environment.globals past globals ∧
      GlobalsAlong globals future final.globals ∧
      ∀ x, globals.binds x → x ∈ p.topLevelNames ∧ x ∈ p.environment.declared ∧
        ∀ q ∈ p.environment.procedures, x ∉ q.locals p.topLevelNames) ∧
    ∀ x value, final.get? x = some value → x ∈ final.declared := by
  intro final
  have hwithin : final.Within p := p.within_end hp fuel console
  refine ⟨fun past future hevents => ?_, fun x value hx => ?_⟩
  · have halong := p.globalsAlong fuel console
    have hall := p.within_events hp fuel console
    rw [hevents] at halong hall
    obtain ⟨globals, hpast, hfuture⟩ := halong.split
    refine ⟨globals, hpast, hfuture, fun x hx => ?_⟩
    have htop := hfuture.binds_topLevel (List.forall_mem_append.1 hall).2 hwithin.globals hx
    exact ⟨htop, p.declared_of_topLevel hp htop,
      fun q _ hlocal => (Procedure.of_mem_locals hlocal).2.2 htop⟩
  · have hglobal : final.globals.binds x := by
      rw [Bindings.binds, ← p.get?_end hp fuel console, hx]
      rfl
    have hdeclared : final.declared = p.environment.declared :=
      (p.executed_run fuel console).declared
    rw [hdeclared]
    exact p.declared_of_topLevel hp (hwithin.globals x hglobal)

/-! ## A run with a point inside a call -/

/-- `add` writes to a global variable and to one of its own, whose name the main program assigns to
as well, but later. -/
def tallyText : String :=
  "PROCEDURE add(n) assign total = total + n read last end
assign total = 4 assign done = add(add(3)) read last"

def tallyTree : List Statement :=
  [.procedure "add" ["n"]
    [.assign "total" (.binary (.variable "total") .add (.variable "n")), .read "last"],
    .assign "total" (.number 4), .assign "done" (.call "add" [.call "add" [.number 3]]),
    .read "last"]

def tallyProgram : Program := ⟨tallyTree, .ofTree tallyTree⟩

/-- The digits 1 and 2 on lines of their own: one line less than the program reads. -/
def tallyConsole : Console := ⟨[49, 10, 50, 10], {}⟩

theorem parse_tallyText : Program.parse tallyText = .ok tallyProgram := by decide +kernel

/-- After six events `add` is about to write to its own `last` for the second time. -/
theorem globals_at_each_point_tally :
    Program.parse tallyText = .ok tallyProgram ∧
    (tallyProgram.run 40 tallyConsole).1 = .failed (.endOfInput "last") ∧
    ∃ globals, GlobalsAlong {} ((tallyProgram.events 40 tallyConsole).take 6) globals ∧
      globals.entries = [("total", .integer 7)] ∧
      ∀ x, globals.binds x → x ∈ ["total", "done", "last"] := by
  obtain ⟨hpoints, -⟩ := globals_at_each_point parse_tallyText 40 tallyConsole
  obtain ⟨globals, hpast, hfuture, hbinds⟩ := hpoints _ _
    (List.take_append_drop 6 (tallyProgram.events 40 tallyConsole)).symm
  obtain ⟨env, later, hnext, henv⟩ : ∃ env later,
      (tallyProgram.events 40 tallyConsole).drop 6 = .write env "last" (.integer 2) :: later ∧
      env.globals.entries = [("total", .integer 7)] := ⟨_, _, rfl, rfl⟩
  rw [hnext] at hfuture
  cases hfuture
  exact ⟨parse_tallyText, by decide +kernel, _, hpast, henv, fun x hx => (hbinds x hx).1⟩

end Blockwork
