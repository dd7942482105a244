import Blockwork.Proofs.Emission
import Blockwork.Proofs.FrameSlots
import Blockwork.Proofs.Start

/-!
# Where names live, and where a run writes them

Code generation gives each name of a procedure one place: a word of the frame, or a word of the data
section if the name has none in the frame. A run decides at each write. The two agree on a write to
a frame. A write to a name of the data section goes to the outermost level if that level has a value
for the name by then, and to the frame if it has none: the main program assigns to the name, but has
not come to that yet.

* `Environment.Within`: what holds of the environment at each moment of a run; the globals are
  names that the main program assigns to, and a frame binds a global name only if the name is the
  procedure's own or a parameter.
* `Traced.within_rules`: it holds at all writes of all runs; `Program.within_events`.
* `Environment.Within.write`: where a write goes in such an environment.
* `writes_follow_places`: the two together, for each write in a run of a source text.
* `writes_leave_data_section`: a run of a program that has code, with a write to the frame of a name
  that lives in the data section.
-/

namespace Blockwork

namespace Environment

theorem getProcedure_congr {env env' : Environment} (h : env'.procedures = env.procedures)
    (name : String) : env'.getProcedure name = env.getProcedure name := by
  unfold getProcedure
  rw [h]

theorem getProcedure_eq_ok {env : Environment} {name : String} {q : Procedure}
    (h : env.getProcedure name = .ok q) : q ∈ env.procedures ∧ q.name = name := by
  unfold getProcedure at h
  split at h
  next hf =>
    cases h
    exact ⟨List.mem_of_find?_eq_some hf, by simpa using List.find?_some hf⟩
  next => cases h

theorem enter_eq_ok {env inner : Environment} {q : Procedure} {values : List Value}
    (h : env.enter q values = .ok inner) : q.parameters.length = values.length ∧
      inner = { env with frames := newFrame q values :: env.frames } := by
  unfold enter at h
  split at h
  next hlen => cases h; exact ⟨hlen, rfl⟩
  next => cases h

/-- What holds of the environment at each moment of a run of a program. -/
structure Within (p : Program) (env : Environment) : Prop where
  procedures : env.procedures = p.environment.procedures
  /-- The main program assigns to each global name. -/
  globals : ∀ x, env.globals.binds x → x ∈ p.topLevelNames
  /-- The innermost frame binds the names that its call started with; its other names are not
  global. -/
  frame : ∀ frame ∈ env.frames.head?, ∃ q, env.getProcedure frame.procedure = .ok q ∧
    (∀ x, x = q.name ∨ x ∈ q.parameters → frame.bindings.binds x) ∧
    ∀ x, frame.bindings.binds x → env.globals.binds x → x = q.name ∨ x ∈ q.parameters

namespace Within

variable {p : Program} {env env' : Environment}

theorem executed (h : Within p env) (he : Executed env env')
    (hg : env.frames = [] → ∀ x, env'.globals.binds x → x ∈ p.topLevelNames) : Within p env' := by
  refine ⟨he.procedures.trans h.procedures, fun x hx => ?_, fun frame' hf' => ?_⟩
  · by_cases hf : env.frames = []
    · exact hg hf x hx
    · exact h.globals x (he.noNewGlobal hf x hx)
  · obtain ⟨outer', ho'⟩ := List.head?_eq_some_iff.1 hf'
    have hne : env.frames ≠ [] := mt he.frames_eq_nil.2 (by simp [ho'])
    obtain ⟨frame, outer, ho⟩ := List.exists_cons_of_ne_nil hne
    have howner : frame'.procedure = frame.procedure := by
      have := he.owners
      rw [ho, ho', List.map_cons, List.map_cons] at this
      exact (List.cons.inj this).1
    have hc : env.current = frame.bindings := by simp [current, ho]
    have hc' : env'.current = frame'.bindings := by simp [current, ho']
    obtain ⟨q, hq, hown, hother⟩ := h.frame frame (by simp [ho])
    refine ⟨q, by rw [howner, getProcedure_congr he.procedures, hq], fun x hx => ?_,
      fun x hx hgx => ?_⟩
    · rw [← hc']
      exact he.current x (hc ▸ hown x hx)
    · have hgx := he.noNewGlobal hne x hgx
      rcases he.noNewShadow hne x (hc' ▸ hx) with hx | hx
      · exact hother x (hc ▸ hx) hgx
      · rw [hgx] at hx; cases hx

theorem evaluated (h : Within p env) (he : Evaluated env env') : Within p env' :=
  h.executed he.executed fun _ x hx => h.globals x (by rwa [he.globals] at hx)

theorem enter (h : Within p env) {name : String} {q : Procedure} {values : List Value}
    {inner : Environment} (hq : env.getProcedure name = .ok q)
    (hi : env.enter q values = .ok inner) : Within p inner := by
  obtain ⟨hlen, rfl⟩ := enter_eq_ok hi
  refine ⟨h.procedures, h.globals, fun frame hf => ?_⟩
  simp only [List.head?_cons, Option.mem_some] at hf
  subst hf
  refine ⟨q, ?_, fun x hx => (binds_newFrame hlen x).2 hx,
    fun x hx _ => (binds_newFrame hlen x).1 hx⟩
  have hn : (newFrame q values).procedure = name := (getProcedure_eq_ok hq).2
  rw [hn]
  exact hq

/-- A global name that the frame does not bind has no place in the frame. -/
theorem place_of_global (h : Within p env) {frame : Frame} {outer : List Frame}
    (hf : env.frames = frame :: outer) {q : Procedure}
    (hq : p.environment.getProcedure frame.procedure = .ok q) {name : String}
    (hb : frame.bindings.binds name = false) (hg : env.globals.binds name) :
    Layout.offset? q (q.locals p.topLevelNames) name = none := by
  obtain ⟨q', hq', hown, -⟩ := h.frame frame (by simp [hf])
  rw [getProcedure_congr h.procedures, hq] at hq'
  cases hq'
  refine Layout.offset?_eq_none_iff.2 ⟨fun hl => ?_, fun hp => ?_, fun hn => ?_⟩
  · -- A local is no name of the main program, so it is not global.
    exact (Procedure.of_mem_locals hl).2.2 (h.globals name hg)
  · rw [hown name (.inr hp)] at hb; cases hb
  · rw [hown name (.inl hn)] at hb; cases hb

/-- Where a write goes: to the frame if the name has a place there, and else to the outermost level
if there is a value for the name by then. -/
theorem write (h : Within p env) {frame : Frame} {outer : List Frame}
    (hf : env.frames = frame :: outer) (name : String) (value : Value) :
    ∃ q, p.environment.getProcedure frame.procedure = .ok q ∧
      let inFrame :=
        { env with frames := { frame with bindings := frame.bindings.set name value } :: outer }
      match (Layout.frame q (q.locals p.topLevelNames)).locate name with
      | .relative _ base => base = .fp ∧ env.set name value = inFrame
      | .labelled label => label = .variable name ∧
        env.set name value =
          if env.globals.binds name then { env with globals := env.globals.set name value }
          else inFrame := by
  obtain ⟨q, hq, -, hother⟩ := h.frame frame (by simp [hf])
  rw [getProcedure_congr h.procedures] at hq
  refine ⟨q, hq, ?_⟩
  simp only [Layout.locate, Environment.set, hf]
  cases ho : Layout.offset? q (q.locals p.topLevelNames) name with
  | none =>
    obtain ⟨-, hparam, hname⟩ := Layout.offset?_eq_none_iff.1 ho
    refine ⟨rfl, ?_⟩
    by_cases hg : env.globals.binds name
    · have hb : frame.bindings.binds name = false := by
        rw [Bool.eq_false_iff]
        intro hb
        rcases hother name hb hg with h | h
        · exact hname h
        · exact hparam h
      simp only [Bindings.binds, Option.isSome_eq_false_iff] at hb hg
      simp [Bindings.binds, hb, hg]
    · have hg' : env.globals.get? name = none := by simpa [Bindings.binds] using hg
      simp [Bindings.binds, hg']
  | some o =>
    refine ⟨rfl, if_neg ?_⟩
    intro hc
    rw [Bool.and_eq_true, Option.isNone_iff_eq_none] at hc
    have hb : frame.bindings.binds name = false := by simp [Bindings.binds, hc.1]
    rw [h.place_of_global hf hq hb hc.2] at ho
    cases ho

end Within

end Environment

/-! ## All writes of a run -/

/-- The environment of a write is one of a run of the program. -/
def Event.Within (p : Program) : Event → Prop
  | .write env _ _ => env.Within p
  | .read _ | .display _ => True

namespace Traced

variable {α β : Type} {p : Program}

/-- The run of an expression: in an environment of a run of the program, so are all its writes. -/
structure WritesWithin (p : Program) (x : Traced α) : Prop where
  keeps : ∀ s : State, s.environment.Evaluated (x s).state.environment
  events : ∀ s : State, s.environment.Within p → ∀ ev ∈ (x s).events, ev.Within p

/-- The run of a statement that assigns to names in `A`: the same, and it ends in such an
environment. Outside of calls, the names have to be names of the main program. -/
structure StaysWithin (p : Program) (A : String → Prop) (x : Traced α) : Prop where
  keeps : ∀ s : State, s.environment.Executed (x s).state.environment
  events : ∀ s : State, s.environment.Within p →
    (s.environment.frames = [] → ∀ x, A x → x ∈ p.topLevelNames) →
    (x s).state.environment.Within p ∧ ∀ ev ∈ (x s).events, ev.Within p

/-- The events of two steps are those of the first, and those of the second if it is reached. -/
theorem bind_events {x : Traced α} {f : α → Traced β} {s : State}
    (hx : ∀ ev ∈ (x s).events, ev.Within p)
    (hf : ∀ a t es, x s = ⟨.done a, t, es⟩ → ∀ ev ∈ (f a t).events, ev.Within p) :
    ∀ ev ∈ ((x >>= f) s).events, ev.Within p := by
  obtain ⟨a, t, es, h, he⟩ | ⟨e, t, es, h, he⟩ | ⟨t, es, h, he⟩ := bind_result x f s <;>
    rw [h] at hx <;> rw [he]
  · intro ev hev
    rcases List.mem_append.1 hev with hev | hev
    · exact hx ev hev
    · exact hf a t es h ev hev
  · exact hx
  · exact hx

theorem WritesWithin.ask (f : Environment → Except RuntimeError α) :
    WritesWithin p (Traced.ask f) :=
  ⟨evaluated_executed_rules.ask f, fun s _ => by simp [ask_events]⟩

theorem WritesWithin.bind {x : Traced α} {f : α → Traced β} (hx : WritesWithin p x)
    (hf : ∀ a, WritesWithin p (f a)) : WritesWithin p (x >>= f) := by
  refine ⟨evaluated_executed_rules.bind hx.keeps fun a => (hf a).keeps, fun s hs => ?_⟩
  refine bind_events (hx.events s hs) fun a t es h => (hf a).events t (hs.evaluated ?_)
  simpa [h] using hx.keeps s

/-- The body of a procedure starts in the environment of a run, since its frame binds what it has
to. -/
theorem events_call {A : String → Prop} {q : Procedure} {body : Traced Unit}
    (hb : StaysWithin p A body) (values : List Value) {s : State} (hs : s.environment.Within p)
    {name : String} (hq : s.environment.getProcedure name = .ok q) :
    ∀ ev ∈ (Traced.call q values body s).events, ev.Within p := by
  obtain ⟨e, -, he⟩ | ⟨inner, r, hi, rfl, he⟩ := call_result q values body s
  · simp [he]
  · have hw := hs.enter hq hi
    rw [he]
    refine (hb.events { s with environment := inner } hw fun hf => ?_).2
    simp [(Environment.enter_eq_ok hi).2] at hf

theorem WritesWithin.call {name : String} {values : Traced (List Value)}
    {body : Procedure → Traced Unit} (hv : WritesWithin p values)
    (hb : ∀ q, StaysWithin p (· ∈ Statement.listAssigned q.body) (body q)) :
    WritesWithin p (do
      let q ← Traced.ask fun env => env.getProcedure name
      let vs ← values
      Traced.call q vs (body q)) := by
  refine ⟨evaluated_executed_rules.call hv.keeps fun q => (hb q).keeps, fun s hs => ?_⟩
  refine bind_events (by simp [ask_events]) fun q t es h => ?_
  obtain ⟨rfl, hq⟩ : t = s ∧ s.environment.getProcedure name = .ok q := by
    simp only [Traced.ask, record, Execution.ask, Execution.ofExcept] at h
    split at h
    next hq => cases h; exact ⟨rfl, hq⟩
    next => cases h
  refine bind_events (hv.events t hs) fun vs u es h => ?_
  have hu : t.environment.Evaluated u.environment := by simpa [h] using hv.keeps t
  have hq' : u.environment.getProcedure name = .ok q := by
    rw [Environment.getProcedure_congr hu.procedures, hq]
  exact events_call (hb q) vs (hs.evaluated hu) hq'

theorem WritesWithin.stays {A : String → Prop} {x : Traced α} (hx : WritesWithin p x) :
    StaysWithin p A x :=
  ⟨fun s => (hx.keeps s).executed, fun s hs _ => ⟨hs.evaluated (hx.keeps s), hx.events s hs⟩⟩

/-- A step that leaves the environment as it is and writes to no name. -/
theorem StaysWithin.of_silent {A : String → Prop} {x : Traced α}
    (h : ∀ s : State, (x s).state.environment = s.environment ∧
      ∀ ev ∈ (x s).events, ev.Within p) : StaysWithin p A x := by
  refine ⟨fun s => ?_, fun s hs _ => ⟨?_, (h s).2⟩⟩
  · rw [(h s).1]; exact (Environment.Evaluated.refl _).executed
  · rw [(h s).1]; exact hs

theorem StaysWithin.sequence {A : String → Prop} {x : Traced α} {f : α → Traced β}
    (hx : StaysWithin p A x) (hf : ∀ a, StaysWithin p A (f a)) : StaysWithin p A (x >>= f) := by
  refine ⟨evaluated_executed_rules.sequence (A := A) hx.keeps fun a => (hf a).keeps,
    fun s hs hA => ?_⟩
  obtain ⟨hw, hev⟩ := hx.events s hs hA
  have hk := hx.keeps s
  obtain ⟨a, t, es, h, he⟩ | ⟨e, t, es, h, he⟩ | ⟨t, es, h, he⟩ := bind_result x f s <;>
    rw [h] at hw hk hev <;> rw [he]
  · obtain ⟨hw', hev'⟩ := (hf a).events t hw fun hft => hA (hk.frames_eq_nil.1 hft)
    refine ⟨hw', fun ev hmem => ?_⟩
    rcases List.mem_append.1 hmem with hmem | hmem
    · exact hev ev hmem
    · exact hev' ev hmem
  · exact ⟨hw, hev⟩
  · exact ⟨hw, hev⟩

theorem StaysWithin.assign {A : String → Prop} {name : String} (hA : A name) (value : Value) :
    StaysWithin p A (Traced.assign name value) := by
  refine ⟨evaluated_executed_rules.assign hA, fun s hs htop => ⟨?_, fun ev hev => ?_⟩⟩
  · refine hs.executed (.set s.environment name value) fun hf x hx => ?_
    have hset : (Traced.assign name value s).state.environment =
        { s.environment with globals := s.environment.globals.set name value } := by
      simp only [Traced.assign, record, Execution.assign, Environment.set, hf]
    rw [hset, Bindings.binds_set, Bool.or_eq_true, decide_eq_true_eq] at hx
    rcases hx with rfl | hx
    · exact htop hf x hA
    · exact hs.globals x hx
  · simp only [Traced.assign, record, List.mem_singleton] at hev
    subst hev
    exact hs

theorem StaysWithin.read {A : String → Prop} (name : String) :
    StaysWithin p A (Traced.read name) := by
  refine .of_silent fun s => ⟨?_, by simp [Traced.read, record, Event.Within]⟩
  simp only [Traced.read, record, Execution.read, Execution.ofExcept]
  split <;> rfl

theorem StaysWithin.display {A : String → Prop} (value : Value) :
    StaysWithin p A (Traced.display value) := by
  refine .of_silent fun s => ⟨?_, by simp [Traced.display, record, Event.Within]⟩
  simp only [Traced.display, record, Execution.display, Execution.ofExcept]
  split <;> rfl

/-- All writes of all runs happen in environments of a run of the program. -/
theorem within_rules (p : Program) : Rules (WritesWithin p) (fun A _ x => StaysWithin p A x) where
  ask := .ask
  exhausted := ⟨evaluated_executed_rules.exhausted, fun s _ => by simp [exhausted, record]⟩
  bind := .bind
  call := .call
  compute hx := hx.stays
  sequence := .sequence
  assign hA := .assign hA _
  read := .read _
  display := .display _

end Traced

/-! ## Runs of source texts -/

theorem Program.within_start {source : String} {p : Program} (h : Program.parse source = .ok p) :
    p.environment.Within p := by
  obtain ⟨declared, he⟩ := environment_of_parse h
  refine ⟨rfl, fun x hx => ?_, fun frame hf => ?_⟩
  · simp [he, Bindings.binds, Bindings.get?] at hx
  · simp [he] at hf

theorem Program.within_events {source : String} {p : Program} (h : Program.parse source = .ok p)
    (fuel : Nat) (console : Console) : ∀ ev ∈ p.events fuel console, ev.Within p := by
  have hs := ((Traced.within_rules p).trace fuel).2.2.2 (· ∈ p.topLevelNames) p.tree fun _ h => h
  exact (hs.events ⟨p.environment, console⟩ (within_start h) fun _ _ h => h).2

/-- For each write inside a call in a run of a source text: a name with a place in the frame of the
procedure is written there. A name that lives in the data section is written in the outermost level
if there is a value for it, and in the frame of the call if there is none. -/
theorem writes_follow_places {source : String} {p : Program} (hp : Program.parse source = .ok p)
    (fuel : Nat) (console : Console) {env : Environment} {name : String} {value : Value}
    (hw : .write env name value ∈ p.events fuel console) {frame : Frame} {outer : List Frame}
    (hf : env.frames = frame :: outer) :
    ∃ q, p.environment.getProcedure frame.procedure = .ok q ∧
      let inFrame :=
        { env with frames := { frame with bindings := frame.bindings.set name value } :: outer }
      match (Layout.frame q (q.locals p.topLevelNames)).locate name with
      | .relative _ base => base = .fp ∧ env.set name value = inFrame
      | .labelled label => label = .variable name ∧
        env.set name value =
          if env.globals.binds name then { env with globals := env.globals.set name value }
          else inFrame := by
  have h : env.Within p := p.within_events hp fuel console _ hw
  exact h.write hf name value

/-! ## A write that leaves the data section -/

/-- A procedure assigns to `x` before the main program does. -/
def earlyCall : String :=
  "PROCEDURE p() assign x = 5 end assign y = p() display x assign x = 2"

def earlyTree : List Statement :=
  [.procedure "p" [] [.assign "x" (.number 5)], .assign "y" (.call "p" []),
    .display (.variable "x"), .assign "x" (.number 2)]

def earlyProgram : Program := ⟨earlyTree, .ofTree earlyTree⟩

/-- The environment in which the procedure assigns to `x`. -/
def earlyEnvironment : Environment :=
  { earlyProgram.environment with frames := [⟨"p", ⟨[("p", .integer 0)]⟩⟩] }

theorem parse_earlyCall : Program.parse earlyCall = .ok earlyProgram := by decide +kernel

theorem earlyWrite_mem_events :
    .write earlyEnvironment "x" (.integer 5) ∈ earlyProgram.events 20 {} := by decide

/-- The write to `x` is one of those that `writes_follow_places` is about. -/
theorem writes_follow_places_early :
    ∃ q, earlyProgram.environment.getProcedure "p" = .ok q ∧
      (Layout.frame q (q.locals earlyProgram.topLevelNames)).locate "x" =
        .labelled (.variable "x") ∧
      earlyEnvironment.set "x" (.integer 5) =
        { earlyEnvironment with
          frames := [⟨"p", ⟨[("p", .integer 0), ("x", .integer 5)]⟩⟩] } := by
  obtain ⟨q, hq, h⟩ :=
    writes_follow_places parse_earlyCall 20 {} earlyWrite_mem_events rfl
  refine ⟨q, hq, ?_⟩
  cases hq
  exact ⟨by decide +kernel, h.2⟩

/-- The placement of names does not tell where a write goes: a name that lives in the data section
may be written in a frame, also in the run of a program that has code. -/
theorem writes_leave_data_section :
    ¬ ∀ (source : String) (p : Program), Program.parse source = .ok p →
      ∀ (sink : Sink) (e : Emitter), ({ sink } : Emitter).compile p = (.ok (), e) →
      ∀ (fuel : Nat) (console : Console) (env : Environment) (name : String) (value : Value),
        .write env name value ∈ p.events fuel console →
      ∀ (frame : Frame) (outer : List Frame), env.frames = frame :: outer →
      ∀ q, p.environment.getProcedure frame.procedure = .ok q →
        match (Layout.frame q (q.locals p.topLevelNames)).locate name with
        | .relative _ _ => env.set name value =
          { env with frames := { frame with bindings := frame.bindings.set name value } :: outer }
        | .labelled _ =>
          env.set name value = { env with globals := env.globals.set name value } := by
  intro h
  let q : Procedure := ⟨"p", [], [.assign "x" (.number 5)]⟩
  obtain ⟨e, hcode⟩ : ∃ e, ({} : Emitter).compile earlyProgram = (.ok (), e) :=
    Emitter.compile_of_unlimited rfl (by decide)
  have hplace : (Layout.frame q (q.locals earlyProgram.topLevelNames)).locate "x" =
      .labelled (.variable "x") := by decide +kernel
  have hset := h earlyCall earlyProgram parse_earlyCall {} e hcode 20 {} earlyEnvironment "x"
    (.integer 5) earlyWrite_mem_events ⟨"p", ⟨[("p", .integer 0)]⟩⟩ [] rfl q rfl
  rw [hplace] at hset
  exact absurd hset (by decide)

end Blockwork
