import Blockwork.Proofs.Machine
import Blockwork.Proofs.Placement

/-!
# Machines that match an environment

While a program runs, a machine that runs its code holds the words of all variables: those of the
outermost level under their labels, and those of the innermost call in the frame that `$fp` shows.
The frames of the callers are out of reach until their callees are done.

* `Value.content`: the word of a value.
* `Environment.layout`: where the innermost call keeps its variables.
* `Matches`: the relation between environments and machines.
* `Matches.move`: changes below the variables do not matter.
* `Matches.load`, `Matches.store`: a variable is loaded from its location and stored to it.
* `Event.Proper`: a write that creates no local variable whose name the main program assigns to;
  `Matches.store` is about these only.
-/

namespace Blockwork

/-- The word of a value in compiled code. -/
def Value.content (v : Value) : Content := .word v.asWord.toBitVec

/-- No local variable is created whose name the main program assigns to. -/
def Event.Proper (p : Program) : Event → Prop
  | .write env name _ => env.frames ≠ [] → name ∈ p.topLevelNames → env.get? name ≠ none
  | .read _ | .display _ => True

instance (p : Program) : DecidablePred (Event.Proper p)
  | .write env name _ =>
    inferInstanceAs (Decidable (env.frames ≠ [] → name ∈ p.topLevelNames → env.get? name ≠ none))
  | .read _ | .display _ => inferInstanceAs (Decidable True)

namespace Environment

variable (p : Program) (env : Environment)

/-- Where the variables of the innermost call live, or those of the main program. -/
def layout : Layout :=
  match env.frames with
  | [] => .main
  | frame :: _ =>
    match p.environment.getProcedure frame.procedure with
    | .ok q => .frame q (q.locals p.topLevelNames)
    | .error _ => .main

/-- The names that the routine of the innermost call assigns to. -/
def Assignable (name : String) : Prop :=
  match env.layout p with
  | .main => name ∈ p.topLevelNames
  | .frame q _ => name ∈ Statement.listAssigned q.body

variable {p env}

theorem Executed.layout {env' : Environment} (h : env.Executed env') :
    env'.layout p = env.layout p := by
  have ho := h.owners
  unfold Environment.layout
  cases hf : env.frames with
  | nil => rw [h.frames_eq_nil.2 hf]
  | cons frame outer =>
    obtain ⟨frame', outer', hf'⟩ :=
      List.exists_cons_of_ne_nil (h.frames_ne_nil (by simp [hf]))
    rw [hf, hf'] at ho
    simp only [hf', (List.cons.inj ho).1]

theorem Executed.assignable {env' : Environment} (h : env.Executed env') :
    env'.Assignable p = env.Assignable p := by
  funext name
  simp only [Assignable, h.layout]

theorem layout_of_frames {frame : Frame} {outer : List Frame} (hf : env.frames = frame :: outer)
    {q : Procedure} (hq : p.environment.getProcedure frame.procedure = .ok q) :
    env.layout p = .frame q (q.locals p.topLevelNames) := by
  simp only [layout, hf, hq]

theorem Within.layout (h : env.Within p) {frame : Frame} {outer : List Frame}
    (hf : env.frames = frame :: outer) : ∃ q, p.environment.getProcedure frame.procedure = .ok q ∧
      env.layout p = .frame q (q.locals p.topLevelNames) ∧
      (∀ x, x = q.name ∨ x ∈ q.parameters → frame.bindings.binds x) := by
  obtain ⟨q, hq, hown, -⟩ := h.frame frame (by simp [hf])
  rw [getProcedure_congr h.procedures] at hq
  exact ⟨q, hq, layout_of_frames hf hq, hown⟩

end Environment

open Environment

/-! ## The relation -/

/-- All variables of the innermost call lie at an address of the stack or above it. -/
def Above (layout : Layout) (m : Machine) (s : Int) : Prop :=
  ∀ q locals f, layout = .frame q locals → m.get .fp = .stack f → s + 4 * (locals.length + 1) ≤ f

/-- The addresses of the variables in the frame of the innermost call. -/
def Owned (layout : Layout) (m : Machine) (a : Int) : Prop :=
  ∃ q locals f x o, layout = .frame q locals ∧ m.get .fp = .stack f ∧
    Layout.offset? q locals x = some o ∧ a = f + o

/-- A machine that runs the code of a program holds the words of all variables. -/
structure Matches (p : Program) (env : Environment) (m : Machine) : Prop where
  within : env.Within p
  running : m.exitCode = none
  globals : ∀ x v, env.globals.get? x = some v → m.data (.variable x) = some v.content
  /-- There is a word for each name that the main program assigns to. -/
  storage : ∀ x ∈ p.topLevelNames, (m.data (.variable x)).isSome
  sp : ∃ s, m.get .sp = .stack s ∧ 4 ∣ s ∧ Above (env.layout p) m s
  fp : ∀ q locals, env.layout p = .frame q locals → ∃ f, m.get .fp = .stack f ∧ 4 ∣ f
  /-- Each variable of the innermost call has a place in the frame, and its word is there. -/
  slots : ∀ q locals f x v, env.layout p = .frame q locals → m.get .fp = .stack f →
    env.current.get? x = some v →
      ∃ o, Layout.offset? q locals x = some o ∧ m.stack (f + o) = v.content

/-- The place of a variable is not below the variables. -/
theorem Above.le {q : Procedure} {locals : List String} {m : Machine} {s f o : Int} {x : String}
    (h : Above (.frame q locals) m s) (hf : m.get .fp = .stack f)
    (ho : Layout.offset? q locals x = some o) : s ≤ f + o := by
  have := h q locals f rfl hf
  rcases (Layout.offset?_range ho).2 with ⟨h, -⟩ | ⟨h, -⟩ <;> omega

/-- The variables in a frame are below the saved words or above them. -/
theorem Owned.range {q : Procedure} {locals : List String} {m : Machine} {f a : Int}
    (h : Owned (.frame q locals) m a) (hf : m.get .fp = .stack f) :
    a ≤ f - 4 ∨ f + 8 ≤ a ∧ a ≤ f + 4 * (q.parameters.length + 1) := by
  obtain ⟨q', locals', f', x, o, hl, hf', ho, rfl⟩ := h
  cases hl
  rw [hf] at hf'
  cases hf'
  rcases (Layout.offset?_range ho).2 with ⟨-, h⟩ | ⟨h, h'⟩
  · exact .inl (by omega)
  · exact .inr ⟨by omega, by omega⟩

theorem Above.mono {layout : Layout} {m : Machine} {s s' : Int} (h : Above layout m s)
    (hs : s' ≤ s) : Above layout m s' := fun q locals f hl hf => by
  have := h q locals f hl hf
  omega

theorem Above.congr {layout : Layout} {m m' : Machine} {s : Int} (h : Above layout m s)
    (hf : m'.get .fp = m.get .fp) : Above layout m' s :=
  fun q locals f hl hf' => h q locals f hl (hf ▸ hf')

namespace Matches

variable {p : Program} {env : Environment} {m m' : Machine}

/-- What holds of the address in `$sp`. -/
theorem aligned (h : Matches p env m) {a : Int} (hsp : m.get .sp = .stack a) :
    4 ∣ a ∧ Above (env.layout p) m a := by
  obtain ⟨a', ha, h4, habove⟩ := h.sp
  rw [hsp] at ha
  cases ha
  exact ⟨h4, habove⟩

/-- A machine that differs in its other registers, its place in the code, its output and in what
lies below the variables. -/
theorem move (h : Matches p env m) (hdata : m'.data = m.data) (hexit : m'.exitCode = none)
    (hfp : m'.get .fp = m.get .fp) {s s₀ : Int} (hsp : m'.get .sp = .stack s) (hs : 4 ∣ s)
    (hle : s ≤ s₀) (h₀ : Above (env.layout p) m s₀)
    (hstack : ∀ a, s₀ ≤ a → m'.stack a = m.stack a) : Matches p env m' where
  within := h.within
  running := hexit
  globals x v hx := by rw [hdata]; exact h.globals x v hx
  storage x hx := by rw [hdata]; exact h.storage x hx
  sp := ⟨s, hsp, hs, (h₀.mono hle).congr hfp⟩
  fp q locals hl := by rw [hfp]; exact h.fp q locals hl
  slots q locals f x v hl hf hx := by
    rw [hfp] at hf
    obtain ⟨o, ho, hw⟩ := h.slots q locals f x v hl hf hx
    exact ⟨o, ho, by rw [hstack _ ((hl ▸ h₀).le hf ho), hw]⟩

/-- A machine that differs in registers other than `$sp` and `$fp`. -/
theorem registers (h : Matches p env m) (hdata : m'.data = m.data)
    (hexit : m'.exitCode = m.exitCode) (hfp : m'.get .fp = m.get .fp)
    (hsp : m'.get .sp = m.get .sp) (hstack : m'.stack = m.stack) : Matches p env m' := by
  obtain ⟨s, hs, h4, habove⟩ := h.sp
  exact h.move hdata (hexit.trans h.running) hfp (hsp.trans hs) h4 (Int.le_refl s) habove
    fun a _ => by rw [hstack]

/-- The location of a name that has no place in the frame. -/
theorem locate_eq_labelled {layout : Layout} {x : String} (h : ∀ q locals,
    layout = .frame q locals → Layout.offset? q locals x = none) :
    layout.locate x = .labelled (.variable x) := by
  cases layout with
  | main => rfl
  | frame q locals => simp only [Layout.locate, h q locals rfl]

theorem locate_eq_relative {q : Procedure} {locals : List String} {x : String} {o : Int}
    (h : Layout.offset? q locals x = some o) :
    (Layout.frame q locals).locate x = .relative o .fp := by
  simp only [Layout.locate, h]

/-- The address of a place in the frame. -/
theorem address?_slot (h : Matches p env m) {q : Procedure} {locals : List String} {x : String}
    {o f : Int} (hl : env.layout p = .frame q locals) (hf : m.get .fp = .stack f)
    (ho : Layout.offset? q locals x = some o) : m.address? o .fp = some (f + o) := by
  obtain ⟨f', hf', h4⟩ := h.fp q locals hl
  obtain rfl : f' = f := by rw [hf] at hf'; cases hf'; rfl
  have := (Layout.offset?_range ho).1
  rw [Machine.address?, hf]
  exact if_pos (by omega)

/-- A variable with a value is loaded from its location. -/
theorem load (h : Matches p env m) {x : String} {v : Value} (hx : env.get? x = some v) :
    m.read ((env.layout p).locate x) = some v.content := by
  cases hf : env.frames with
  | nil =>
    have hl : env.layout p = .main := by simp only [layout, hf]
    have hg : env.globals.get? x = some v := by simpa [Environment.get?, hf] using hx
    rw [hl]
    exact h.globals x v hg
  | cons frame outer =>
    obtain ⟨q, hq, hl, hown⟩ := h.within.layout hf
    obtain ⟨f, hfp, -⟩ := h.fp _ _ hl
    cases hb : frame.bindings.get? x with
    | some v' =>
      obtain rfl : v' = v := by simpa [Environment.get?, hf, hb] using hx
      obtain ⟨o, ho, hw⟩ := h.slots _ _ f x v' hl hfp (by simpa [current, hf] using hb)
      rw [hl, locate_eq_relative ho, Machine.read, h.address?_slot hl hfp ho, Option.map_some, hw]
    | none =>
      have hg : env.globals.get? x = some v := by simpa [Environment.get?, hf, hb] using hx
      have hnone := h.within.place_of_global hf hq (by simp [Bindings.binds, hb])
        (show env.globals.binds x by simp [Bindings.binds, hg])
      rw [hl, locate_eq_labelled (fun q' locals' he => by cases he; exact hnone)]
      exact h.globals x v hg

/-- What a store of a variable keeps: all but the word of the variable. -/
structure Stored (layout : Layout) (m m' : Machine) : Prop where
  registers : ∀ r, m'.get r = m.get r
  output : m'.output = m.output
  stack : ∀ a, ¬Owned layout m a → m'.stack a = m.stack a

/-- A store to the data section, for a write to the outermost level. -/
theorem store_global (h : Matches p env m) {x : String} (v : Value) (htop : x ∈ p.topLevelNames)
    (hset : env.set x v = { env with globals := env.globals.set x v }) :
    ∃ m', m.write (.labelled (.variable x)) v.content = some m' ∧ Matches p (env.set x v) m' ∧
      Stored (env.layout p) m m' := by
  have he := Executed.set env x v
  obtain ⟨c, hc⟩ := Option.isSome_iff_exists.1 (h.storage x htop)
  refine ⟨m.keep (.variable x) v.content, by rw [Machine.write, hc, Option.map_some], ?_,
    ⟨fun _ => rfl, rfl, fun _ _ => rfl⟩⟩
  refine ⟨h.within.executed he fun _ y hy => ?_, h.running, fun y w hy => ?_, fun y hy => ?_,
    ?_, ?_, ?_⟩
  · rw [hset, Bindings.binds_set, Bool.or_eq_true, decide_eq_true_eq] at hy
    rcases hy with rfl | hy
    · exact htop
    · exact h.within.globals y hy
  · rw [hset, Bindings.get?_set] at hy
    rw [Machine.keep_data, Function.update_apply]
    by_cases hyx : y = x
    · subst hyx
      rw [if_pos rfl] at hy ⊢
      cases hy
      rfl
    · rw [if_neg hyx] at hy
      rw [if_neg (by simpa using hyx)]
      exact h.globals y w hy
  · rw [Machine.keep_data, Function.update_apply]
    split
    · rfl
    · exact h.storage y hy
  · rw [he.layout]
    exact h.sp
  · rw [he.layout]
    exact h.fp
  · intro q locals f y w hl hf hy
    rw [he.layout] at hl
    refine h.slots q locals f y w hl hf ?_
    -- The write is not to a frame, and there is one.
    rw [hset] at hy
    have hne : env.frames ≠ [] := fun hnil => by simp [layout, hnil] at hl
    obtain ⟨frame, outer, hfr⟩ := List.exists_cons_of_ne_nil hne
    simpa [current, hfr] using hy

/-- A store to the frame, for a write to the innermost call. -/
theorem store_local (h : Matches p env m) {x : String} (v : Value) {frame : Frame}
    {outer : List Frame} (hf : env.frames = frame :: outer) {q : Procedure}
    (hl : env.layout p = .frame q (q.locals p.topLevelNames)) {o : Int}
    (ho : Layout.offset? q (q.locals p.topLevelNames) x = some o)
    (hset : env.set x v =
      { env with frames := { frame with bindings := frame.bindings.set x v } :: outer }) :
    ∃ m', m.write (.relative o .fp) v.content = some m' ∧ Matches p (env.set x v) m' ∧
      Stored (env.layout p) m m' := by
  have he := Executed.set env x v
  obtain ⟨f, hfp, h4⟩ := h.fp _ _ hl
  have hown : Owned (env.layout p) m (f + o) := ⟨q, _, f, x, o, hl, hfp, ho, rfl⟩
  refine ⟨m.poke (f + o) v.content, by rw [Machine.write, h.address?_slot hl hfp ho]; rfl, ?_,
    ⟨fun _ => rfl, rfl, fun a ha => ?_⟩⟩
  · refine ⟨h.within.executed he fun hnil => ?_, h.running, ?_, h.storage, ?_, ?_, ?_⟩
    · rw [hf] at hnil
      cases hnil
    · rw [hset]
      exact h.globals
    · rw [he.layout]
      exact h.sp
    · rw [he.layout]
      exact h.fp
    · intro q' locals' f' y w hl' hf' hy
      rw [he.layout, hl] at hl'
      cases hl'
      obtain rfl : f = f' := by rw [Machine.get_poke, hfp] at hf'; cases hf'; rfl
      simp only [hset, current, Bindings.get?_set] at hy
      rw [Machine.poke_stack]
      by_cases hyx : y = x
      · subst hyx
        rw [if_pos rfl] at hy
        cases hy
        exact ⟨o, ho, by rw [Function.update_self]⟩
      · rw [if_neg hyx] at hy
        obtain ⟨o', ho', hw⟩ := h.slots _ _ f y w hl hfp (by simpa [current, hf] using hy)
        have hne : f + o' ≠ f + o := fun heq => hyx (Layout.offset?_injective ho' (by
          rwa [Int.add_left_cancel heq]))
        exact ⟨o', ho', by rw [Function.update_of_ne hne, hw]⟩
  · rw [Machine.poke_stack]
    refine Function.update_of_ne ?_ _ _
    rintro rfl
    exact ha hown

/-- A variable that the routine assigns to is stored to its location, unless the write creates a
local variable whose name the main program assigns to. -/
theorem store (h : Matches p env m) {x : String} {v : Value} (hx : env.Assignable p x)
    (hproper : (Event.write env x v).Proper p) :
    ∃ m', m.write ((env.layout p).locate x) v.content = some m' ∧ Matches p (env.set x v) m' ∧
      Stored (env.layout p) m m' := by
  cases hf : env.frames with
  | nil =>
    have hl : env.layout p = .main := by simp only [layout, hf]
    rw [Assignable, hl] at hx
    have hloc : (env.layout p).locate x = .labelled (.variable x) := by rw [hl]; rfl
    rw [hloc]
    exact h.store_global v hx (by simp only [Environment.set, hf])
  | cons frame outer =>
    obtain ⟨q, hq, hl, -⟩ := h.within.layout hf
    obtain ⟨q', hq', hwrite⟩ := h.within.write hf x v
    rw [hq] at hq'
    cases hq'
    rw [Assignable, hl] at hx
    cases ho : Layout.offset? q (q.locals p.topLevelNames) x with
    | some o =>
      rw [locate_eq_relative ho] at hwrite
      rw [hl, locate_eq_relative ho, ← hl]
      exact h.store_local v hf hl ho hwrite.2
    | none =>
      have hlabel : (Layout.frame q (q.locals p.topLevelNames)).locate x =
          .labelled (.variable x) :=
        locate_eq_labelled fun q' locals' he => by cases he; exact ho
      rw [hlabel] at hwrite
      rw [hl, hlabel, ← hl]
      obtain ⟨hlocal, hparam, hname⟩ := Layout.offset?_eq_none_iff.1 ho
      have htop : x ∈ p.topLevelNames := by
        by_contra htop
        refine hlocal (List.mem_filter.2 ⟨mem_sortNames.2 hx, ?_⟩)
        simp [hname, hparam, htop]
      -- The frame has no place for the name, so a value that there is for it is global.
      have hnone : frame.bindings.get? x = none := by
        cases hb : frame.bindings.get? x with
        | none => rfl
        | some w =>
          obtain ⟨f, hfp, -⟩ := h.fp _ _ hl
          obtain ⟨o, ho', -⟩ := h.slots _ _ f x w hl hfp (by simpa [current, hf] using hb)
          rw [ho] at ho'
          cases ho'
      have hg : env.globals.binds x := by
        have := hproper (by simp [hf]) htop
        simpa [Environment.get?, hf, hnone, Bindings.binds, Option.isSome_iff_ne_none] using this
      exact h.store_global v htop (hwrite.2.trans (if_pos hg))

end Matches

end Blockwork
