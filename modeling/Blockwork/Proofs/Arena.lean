import Mathlib.Logic.Function.Basic
import Blockwork.Proofs.FrameSlots

/-!
# Scopes in an arena

The scopes of an environment can be kept in an arena: a list in which the outermost level is the
scope at index zero, each call under way has a scope behind those of its callers, and each scope has
a link to its parent. A look-up walks along the links. Whatever is done with the scopes, the arena
gives the answers that two levels give, the innermost frame and the outermost level.

* `ScopeOperation`, `ScopeAnswer`, `history`: what can be done with scopes, and the answers to
  operations one after the other. `history_of_simulation` goes from one operation to histories.
* `Levels`: one map for the outermost level and a stack of maps for the calls under way.
* `Arena`: scopes with links. `Arena.perform` is `lost` if it meets an index without a scope, or if
  a walk takes more than a given number of steps.
* `Environment.levels`, `Environment.arena`: the two views of an environment; `levels_perform` and
  `arena_perform` are the simulations.
* `scope_histories_agree`: the three have the same histories.
-/

namespace Blockwork

/-! ## Operations on scopes -/

/-- What can be done with scopes. -/
inductive ScopeOperation where
  | set (name : String) (value : Value)
  | get (name : String)
  /-- Opens a call. -/
  | enter (p : Procedure) (values : List Value)
  /-- Closes the innermost call. -/
  | leave
  /-- The result of the innermost call so far. -/
  | result
  | currentProcedure
  | depth

/-- What an operation answers. -/
inductive ScopeAnswer where
  | done
  | value (found : Except RuntimeError Value)
  | entered (outcome : Except RuntimeError Unit)
  /-- There is no result if no call is under way. -/
  | result (value : Option Value)
  | procedure (name : Option String)
  | depth (levels : Nat)
  /-- There is no answer. -/
  | lost
  deriving DecidableEq

/-- The answers to operations, one after the other, and the state behind them. -/
def history {σ : Type} (perform : σ → ScopeOperation → ScopeAnswer × σ) (s : σ) :
    List ScopeOperation → List ScopeAnswer × σ
  | [] => ([], s)
  | op :: ops =>
    let (answer, s) := perform s op
    let (answers, s) := history perform s ops
    (answer :: answers, s)

/-- States that stay related, with the same answers to single operations, have the same
histories. -/
theorem history_of_simulation {σ τ : Type} {f : σ → ScopeOperation → ScopeAnswer × σ}
    {g : τ → ScopeOperation → ScopeAnswer × τ} {R : σ → τ → Prop}
    (step : ∀ s t op, R s t → (g t op).1 = (f s op).1 ∧ R (f s op).2 (g t op).2)
    {s : σ} {t : τ} (h : R s t) (ops : List ScopeOperation) :
    (history g t ops).1 = (history f s ops).1 ∧ R (history f s ops).2 (history g t ops).2 := by
  induction ops generalizing s t with
  | nil => exact ⟨rfl, h⟩
  | cons op ops ih =>
    obtain ⟨hanswer, hnext⟩ := step s t op h
    obtain ⟨hanswers, hlast⟩ := ih hnext
    exact ⟨List.cons_eq_cons.2 ⟨hanswer, hanswers⟩, hlast⟩

theorem history_append {σ : Type} {f : σ → ScopeOperation → ScopeAnswer × σ} (s : σ)
    (ops ops' : List ScopeOperation) :
    (history f s (ops ++ ops')).2 = (history f (history f s ops).2 ops').2 := by
  induction ops generalizing s with
  | nil => rfl
  | cons op ops ih => exact ih (f s op).2

namespace Environment

/-- The operations on an environment. -/
def perform (env : Environment) : ScopeOperation → ScopeAnswer × Environment
  | .set name value => (.done, env.set name value)
  | .get name => (.value (env.get name), env)
  | .enter p values =>
    match env.enter p values with
    | .ok inner => (.entered (.ok ()), inner)
    | .error e => (.entered (.error e), env)
  | .leave => (.done, env.leave)
  | .result => (.result (if env.frames.isEmpty then none else some env.result), env)
  | .currentProcedure => (.procedure env.currentProcedure?, env)
  | .depth => (.depth env.depth, env)

end Environment

/-! ## Two levels -/

/-- The value of each name that has one. -/
abbrev Meaning : Type := String → Option Value

/-- The outermost level, and the calls under way, the innermost first. -/
structure Levels where
  globals : Meaning := fun _ => none
  frames : List (String × Meaning) := []

namespace Levels

/-- A name with a new value. -/
def bind (m : Meaning) (name : String) (value : Value) : Meaning :=
  Function.update m name (some value)

/-- The innermost call comes before the outermost level. -/
def find (levels : Levels) (name : String) : Option Value :=
  match levels.frames with
  | [] => levels.globals name
  | (_, m) :: _ => (m name).or (levels.globals name)

/-- A value goes to the innermost call if that binds the name, else to the outermost level if that
does, and else to the innermost scope. -/
def set (levels : Levels) (name : String) (value : Value) : Levels :=
  match levels.frames with
  | [] => { levels with globals := bind levels.globals name value }
  | (p, m) :: outer =>
    if (m name).isSome then { levels with frames := (p, bind m name value) :: outer }
    else if (levels.globals name).isSome then
      { levels with globals := bind levels.globals name value }
    else { levels with frames := (p, bind m name value) :: outer }

/-- A call starts with zero for the procedure's name, and then the parameters in order. -/
def start (p : Procedure) (values : List Value) : Meaning :=
  (p.parameters.zip values).foldl (fun m entry => bind m entry.1 entry.2)
    (bind (fun _ => none) p.name (.integer 0))

/-- The operations on two levels. The result of a call is what its own frame has for the name of
the procedure. -/
def perform (levels : Levels) : ScopeOperation → ScopeAnswer × Levels
  | .set name value => (.done, levels.set name value)
  | .get name =>
    match levels.find name with
    | some value => (.value (.ok value), levels)
    | none => (.value (.error (.undefinedVariable name)), levels)
  | .enter p values =>
    if p.parameters.length = values.length then
      (.entered (.ok ()), { levels with frames := (p.name, start p values) :: levels.frames })
    else
      (.entered (.error (.arityMismatch p.name p.parameters.length values.length)), levels)
  | .leave => (.done, { levels with frames := levels.frames.tail })
  | .result => (.result (levels.frames.head?.bind fun frame => frame.2 frame.1), levels)
  | .currentProcedure => (.procedure (levels.frames.head?.map Prod.fst), levels)
  | .depth => (.depth (levels.frames.length + 1), levels)

end Levels

/-! ## The levels of an environment -/

namespace Bindings

theorem get?_set_eq_bind (b : Bindings) (name : String) (value : Value) :
    (b.set name value).get? = Levels.bind b.get? name value := by
  funext x
  rw [get?_set, Levels.bind, Function.update_apply]

theorem get?_setAll_eq_foldl (b : Bindings) (entries : List (String × Value)) :
    (b.setAll entries).get? =
      entries.foldl (fun m entry => Levels.bind m entry.1 entry.2) b.get? := by
  induction entries generalizing b with
  | nil => rfl
  | cons entry entries ih =>
    rw [List.foldl_cons, ← get?_set_eq_bind]
    exact ih (b.set entry.1 entry.2)

end Bindings

namespace Environment

/-- The two levels of an environment. -/
def levels (env : Environment) : Levels :=
  ⟨env.globals.get?, env.frames.map fun frame => (frame.procedure, frame.bindings.get?)⟩

/-- Each call under way has a value for the name of its procedure. -/
def HasResults (env : Environment) : Prop :=
  ∀ frame ∈ env.frames, frame.bindings.binds frame.procedure = true

theorem newFrame_levels (p : Procedure) (values : List Value) :
    (newFrame p values).bindings.get? = Levels.start p values := by
  have hempty : Bindings.get? {} = fun _ => none := rfl
  show (Bindings.setAll (Bindings.set {} p.name (.integer 0)) (p.parameters.zip values)).get? = _
  rw [Bindings.get?_setAll_eq_foldl, Bindings.get?_set_eq_bind, hempty]
  rfl

theorem HasResults.set {env : Environment} (h : env.HasResults) (name : String) (value : Value) :
    (env.set name value).HasResults := by
  unfold HasResults Environment.set
  split
  · exact h
  next frame outer hf =>
    rw [HasResults, hf, List.forall_mem_cons] at h
    split
    · rw [hf]
      exact List.forall_mem_cons.2 h
    · refine List.forall_mem_cons.2 ⟨?_, h.2⟩
      rw [Bindings.binds_set, h.1, Bool.or_true]

theorem HasResults.enter {env inner : Environment} (h : env.HasResults) {p : Procedure}
    {values : List Value} (hi : env.enter p values = .ok inner) : inner.HasResults := by
  unfold Environment.enter at hi
  split at hi
  next hlen =>
    cases hi
    exact List.forall_mem_cons.2 ⟨(binds_newFrame hlen _).2 (.inl rfl), h⟩
  next => cases hi

theorem levels_set (env : Environment) (name : String) (value : Value) :
    (env.set name value).levels = env.levels.set name value := by
  obtain ⟨globals, frames, procedures, declared⟩ := env
  cases frames with
  | nil => simp only [Environment.set, levels, Levels.set, Bindings.get?_set_eq_bind, List.map_nil]
  | cons frame outer =>
    simp only [Environment.set, levels, Levels.set, List.map_cons]
    cases hf : frame.bindings.get? name <;> cases hg : globals.get? name <;>
      simp [Bindings.get?_set_eq_bind]

theorem find_levels (env : Environment) (name : String) :
    env.levels.find name = env.get? name := by
  obtain ⟨globals, frames, procedures, declared⟩ := env
  cases frames <;> rfl

/-- The result of a call is in its own frame. -/
theorem result_levels {env : Environment} (h : env.HasResults) :
    (env.levels.frames.head?.bind fun frame => frame.2 frame.1) =
      if env.frames.isEmpty then none else some env.result := by
  obtain ⟨globals, frames, procedures, declared⟩ := env
  cases frames with
  | nil => rfl
  | cons frame outer =>
    have hbinds := h frame List.mem_cons_self
    obtain ⟨value, hvalue⟩ := Option.isSome_iff_exists.1 hbinds
    simp [levels, result, currentProcedure?, Environment.get?, hvalue]

/-- An operation on the levels of an environment is the operation on the environment. -/
theorem levels_perform {env : Environment} (h : env.HasResults) (op : ScopeOperation) :
    env.levels.perform op = ((env.perform op).1, (env.perform op).2.levels) ∧
      (env.perform op).2.HasResults := by
  cases op with
  | set name value => exact ⟨by rw [Levels.perform, ← levels_set]; rfl, h.set name value⟩
  | get name =>
    refine ⟨?_, h⟩
    simp only [Levels.perform, perform, find_levels, Environment.get]
    cases env.get? name <;> rfl
  | enter p values =>
    simp only [Levels.perform, perform]
    by_cases hlen : p.parameters.length = values.length
    · have hi : env.enter p values = .ok { env with frames := newFrame p values :: env.frames } :=
        if_pos hlen
      rw [hi, if_pos hlen]
      refine ⟨?_, h.enter hi⟩
      simp only [levels, List.map_cons, newFrame_levels]
      rfl
    · have hi : env.enter p values =
          .error (.arityMismatch p.name p.parameters.length values.length) := if_neg hlen
      rw [hi, if_neg hlen]
      exact ⟨rfl, h⟩
  | leave =>
    refine ⟨?_, fun frame hf => h frame (List.mem_of_mem_tail hf)⟩
    simp [Levels.perform, perform, levels, leave, List.map_tail]
  | result =>
    refine ⟨?_, h⟩
    rw [Levels.perform, result_levels h]
    rfl
  | currentProcedure =>
    refine ⟨?_, h⟩
    simp [Levels.perform, perform, levels, currentProcedure?, Function.comp_def]
  | depth =>
    refine ⟨?_, h⟩
    simp [Levels.perform, perform, levels, depth]

end Environment

/-! ## Arenas -/

/-- A scope with a link to its parent. -/
structure ArenaScope where
  bindings : Bindings := {}
  parent : Option Nat := none
  /-- The procedure whose call the scope belongs to. -/
  procedure : Option String := none

/-- Scopes by their indices. There is the outermost level at the start. -/
structure Arena where
  scopes : List ArenaScope := [{}]

namespace Arena

/-- The index of the innermost scope. -/
def current (a : Arena) : Nat := a.scopes.length - 1

/-- Walks from a scope to its parent and on, to the first scope that binds a name. The walk is lost
if it comes to an index without a scope, or if it takes more than a number of steps. -/
def resolve (a : Arena) (name : String) : Nat → Option Nat → Option (Option Nat)
  | _, none => some none
  | 0, some _ => none
  | steps + 1, some index => do
    let scope ← a.scopes[index]?
    if scope.bindings.binds name then return some index
    else a.resolve name steps scope.parent

/-- The value of a name, as it is found from the innermost scope. -/
def find (a : Arena) (steps : Nat) (name : String) : Option (Option Value) := do
  match ← a.resolve name steps (some a.current) with
  | none => return none
  | some index =>
    let scope ← a.scopes[index]?
    return scope.bindings.get? name

/-- Gives a name a value, where the name is found or else in the innermost scope. -/
def set (a : Arena) (steps : Nat) (name : String) (value : Value) : Option Arena := do
  let index := (← a.resolve name steps (some a.current)).getD a.current
  let scope ← a.scopes[index]?
  return ⟨a.scopes.set index { scope with bindings := scope.bindings.set name value }⟩

section

variable {a : Arena} {steps : Nat} {name : String} {scope : ArenaScope}

theorem find_of_none (h : a.resolve name steps (some a.current) = some none) :
    a.find steps name = some none := by
  rw [find, h]
  rfl

theorem find_of_some {index : Nat} (h : a.resolve name steps (some a.current) = some (some index))
    (hs : a.scopes[index]? = some scope) :
    a.find steps name = some (scope.bindings.get? name) := by
  rw [find, h]
  show (a.scopes[index]?.bind fun scope => some (scope.bindings.get? name)) = _
  rw [hs, Option.bind_some]

theorem set_of_resolve {place : Option Nat}
    (h : a.resolve name steps (some a.current) = some place)
    (hs : a.scopes[place.getD a.current]? = some scope) (value : Value) :
    a.set steps name value = some ⟨a.scopes.set (place.getD a.current)
      { scope with bindings := scope.bindings.set name value }⟩ := by
  rw [set, h]
  show (a.scopes[place.getD a.current]?.bind fun scope => some _) = _
  rw [hs, Option.bind_some]

end

/-- Opens the scope of a call. Its parent is the outermost level, whoever calls. -/
def push (a : Arena) (p : Procedure) (values : List Value) : Arena :=
  ⟨a.scopes ++ [⟨.setAll (.set {} p.name (.integer 0)) (p.parameters.zip values), some 0,
    some p.name⟩]⟩

/-- The procedure of the innermost scope. -/
def currentProcedure (a : Arena) : Option (Option String) :=
  a.scopes[a.current]?.map ArenaScope.procedure

/-- The value of the name of the innermost procedure, or zero if there is none. -/
def result (a : Arena) (steps : Nat) : Option Value := do
  match ← a.currentProcedure with
  | none => return .integer 0
  | some name => return (← a.find steps name).getD (.integer 0)

/-- The operations on an arena, as far as it is not lost. -/
def tryPerform (steps : Nat) (a : Arena) : ScopeOperation → Option (ScopeAnswer × Arena)
  | .set name value => do
    return (.done, ← a.set steps name value)
  | .get name => do
    match ← a.find steps name with
    | some value => return (.value (.ok value), a)
    | none => return (.value (.error (.undefinedVariable name)), a)
  | .enter p values =>
    if p.parameters.length = values.length then some (.entered (.ok ()), a.push p values)
    else
      some (.entered (.error (.arityMismatch p.name p.parameters.length values.length)), a)
  | .leave => some (.done, if 1 < a.scopes.length then ⟨a.scopes.dropLast⟩ else a)
  | .result =>
    if 1 < a.scopes.length then do return (.result (some (← a.result steps)), a)
    else some (.result none, a)
  | .currentProcedure => do return (.procedure (← a.currentProcedure), a)
  | .depth => some (.depth a.scopes.length, a)

/-- The operations on an arena. A walk may take a number of steps. -/
def perform (steps : Nat) (a : Arena) (op : ScopeOperation) : ScopeAnswer × Arena :=
  (a.tryPerform steps op).getD (.lost, a)

end Arena

/-! ## The arena of an environment -/

/-- The scope of a call under way. -/
def Frame.scope (frame : Frame) : ArenaScope :=
  ⟨frame.bindings, some 0, some frame.procedure⟩

namespace Environment

/-- The scopes of an environment: the outermost level, and the calls from the outermost one on. -/
def arena (env : Environment) : Arena :=
  ⟨⟨env.globals, none, none⟩ :: env.frames.reverse.map Frame.scope⟩

variable (env : Environment)

/-- The innermost scope. -/
def innermost : ArenaScope :=
  (env.frames.head?.map Frame.scope).getD ⟨env.globals, none, none⟩

@[simp] theorem length_arena : env.arena.scopes.length = env.frames.length + 1 := by
  simp [arena]

@[simp] theorem current_arena : env.arena.current = env.frames.length := by
  simp [Arena.current]

theorem arena_outermost : env.arena.scopes[0]? = some ⟨env.globals, none, none⟩ := rfl

/-- Opening a call adds a scope behind the others. -/
theorem arena_cons (frame : Frame) (outer : List Frame) :
    ({ env with frames := frame :: outer } : Environment).arena.scopes =
      ({ env with frames := outer } : Environment).arena.scopes ++ [frame.scope] := by
  simp [arena]

theorem arena_innermost : env.arena.scopes[env.frames.length]? = some env.innermost := by
  obtain ⟨globals, frames, procedures, declared⟩ := env
  cases frames with
  | nil => rfl
  | cons frame outer =>
    rw [arena_cons ⟨globals, [], procedures, declared⟩ frame outer]
    exact List.getElem?_append_right (by simp) |>.trans (by simp [innermost])

/-- The index of the scope where a name is found. -/
def place? (name : String) : Option Nat :=
  if env.current.binds name then some env.frames.length
  else if env.globals.binds name then some 0
  else none

theorem resolve_outermost (name : String) (steps : Nat) :
    env.arena.resolve name (steps + 1) (some 0) =
      some (if env.globals.binds name then some 0 else none) := by
  rw [Arena.resolve, arena_outermost]
  cases hb : env.globals.binds name <;> simp [hb, Arena.resolve]

/-- A walk takes two steps at most: from the innermost call to the outermost level. -/
theorem resolve_arena (name : String) (steps : Nat) :
    env.arena.resolve name (steps + 2) (some env.arena.current) = some (env.place? name) := by
  rw [Arena.resolve, current_arena, arena_innermost, Option.bind_eq_bind, Option.bind_some]
  obtain ⟨globals, frames, procedures, declared⟩ := env
  cases frames with
  | nil =>
    simp only [innermost, place?, current, List.head?_nil, Option.map_none, Option.getD_none]
    by_cases hb : globals.binds name <;> simp [hb, Arena.resolve]
  | cons frame outer =>
    simp only [innermost, place?, current, Frame.scope, List.head?_cons, Option.map_some,
      Option.getD_some, resolve_outermost]
    by_cases hb : frame.bindings.binds name <;> simp [hb]

/-- The innermost scope comes first, also if it is the outermost level. -/
theorem get?_eq_or (name : String) :
    env.get? name = (env.current.get? name).or (env.globals.get? name) := by
  obtain ⟨globals, frames, procedures, declared⟩ := env
  cases frames with
  | nil => cases hg : globals.get? name <;> simp [get?, current, hg]
  | cons frame outer => rfl

theorem innermost_bindings : env.innermost.bindings = env.current := by
  obtain ⟨globals, frames, procedures, declared⟩ := env
  cases frames <;> rfl

theorem find_arena (name : String) (steps : Nat) :
    env.arena.find (steps + 2) name = some (env.get? name) := by
  have hresolve := env.resolve_arena name steps
  rw [place?] at hresolve
  rw [get?_eq_or]
  by_cases hc : env.current.binds name
  · rw [if_pos hc] at hresolve
    obtain ⟨value, hvalue⟩ := Option.isSome_iff_exists.1 hc
    rw [Arena.find_of_some hresolve env.arena_innermost, innermost_bindings, hvalue]
    rfl
  · rw [if_neg hc] at hresolve
    have hcurrent : env.current.get? name = none := by simpa [Bindings.binds] using hc
    rw [hcurrent, Option.none_or]
    by_cases hg : env.globals.binds name
    · rw [if_pos hg] at hresolve
      exact Arena.find_of_some hresolve env.arena_outermost
    · rw [if_neg hg] at hresolve
      have hglobals : env.globals.get? name = none := by simpa [Bindings.binds] using hg
      rw [Arena.find_of_none hresolve, hglobals]

/-- The innermost scope with other bindings. -/
theorem arena_set_innermost (frame : Frame) (outer : List Frame) (bindings : Bindings) :
    ({ env with frames := frame :: outer } : Environment).arena.scopes.set (outer.length + 1)
        ⟨bindings, some 0, some frame.procedure⟩ =
      ({ env with frames := { frame with bindings } :: outer } : Environment).arena.scopes := by
  rw [arena_cons, arena_cons, List.set_append_right _ _ (by simp)]
  simp [Frame.scope]

theorem set_arena (name : String) (value : Value) (steps : Nat) :
    env.arena.set (steps + 2) name value = some (env.set name value).arena := by
  have hresolve := env.resolve_arena name steps
  by_cases hout : env.current.binds name = false ∧ env.globals.binds name = true
  · have hplace : env.place? name = some 0 := by simp [place?, hout.1, hout.2]
    rw [hplace] at hresolve
    rw [Arena.set_of_resolve hresolve env.arena_outermost]
    obtain ⟨globals, frames, procedures, declared⟩ := env
    cases frames with
    | nil => exact absurd (hout.1.symm.trans hout.2) nofun
    | cons frame outer =>
      have hf : frame.bindings.get? name = none := by simpa [Bindings.binds, current] using hout.1
      have hg : (globals.get? name).isSome = true := hout.2
      simp [Environment.set, hf, hg, arena]
  · have hplace : (env.place? name).getD env.arena.current = env.frames.length := by
      rw [current_arena, place?]
      split
      · rfl
      · split
        next hc hg => exact absurd ⟨by simpa using hc, hg⟩ hout
        next => rfl
    have hinnermost := env.arena_innermost
    rw [Arena.set_of_resolve hresolve (by rw [hplace]; exact hinnermost), hplace]
    obtain ⟨globals, frames, procedures, declared⟩ := env
    cases frames with
    | nil => rfl
    | cons frame outer =>
      have hset : ¬((frame.bindings.get? name).isNone && (globals.get? name).isSome) = true := by
        intro h
        rw [Bool.and_eq_true] at h
        exact hout ⟨by simpa [Bindings.binds, current] using h.1, h.2⟩
      simp only [Environment.set, if_neg hset]
      congr 1
      exact congrArg Arena.mk
        (arena_set_innermost ⟨globals, [], procedures, declared⟩ frame outer _)

theorem push_arena (p : Procedure) (values : List Value) :
    env.arena.push p values =
      ({ env with frames := newFrame p values :: env.frames } : Environment).arena := by
  rw [Arena.push]
  simp only [arena, List.reverse_cons, List.map_append, List.cons_append]
  rfl

theorem currentProcedure_arena : env.arena.currentProcedure = some env.currentProcedure? := by
  rw [Arena.currentProcedure, current_arena, arena_innermost]
  obtain ⟨globals, frames, procedures, declared⟩ := env
  cases frames <;> rfl

theorem result_arena (steps : Nat) : env.arena.result (steps + 2) = some env.result := by
  rw [Arena.result, currentProcedure_arena, result]
  cases env.currentProcedure? with
  | none => rfl
  | some name =>
    show (env.arena.find (steps + 2) name).bind (fun found => some (found.getD _)) = _
    rw [find_arena]
    rfl

/-- An operation on the arena of an environment is the operation on the environment. -/
theorem arena_perform (steps : Nat) (op : ScopeOperation) :
    env.arena.perform (steps + 2) op = ((env.perform op).1, (env.perform op).2.arena) := by
  cases op with
  | set name value => simp [Arena.perform, Arena.tryPerform, set_arena, perform]
  | get name =>
    simp only [Arena.perform, Arena.tryPerform, find_arena, perform, Environment.get]
    cases env.get? name <;> rfl
  | enter p values =>
    simp only [Arena.perform, Arena.tryPerform, perform, Environment.enter]
    split
    · rw [push_arena]
      rfl
    · rfl
  | leave =>
    obtain ⟨globals, frames, procedures, declared⟩ := env
    cases frames with
    | nil => rfl
    | cons frame outer =>
      have hlength : 1 < (arena ⟨globals, frame :: outer, procedures, declared⟩).scopes.length := by
        simp
      have hscopes := arena_cons ⟨globals, [], procedures, declared⟩ frame outer
      simp only [Arena.perform, Arena.tryPerform, Option.getD_some, if_pos hlength]
      rw [hscopes, List.dropLast_concat]
      rfl
  | result =>
    simp only [Arena.perform, Arena.tryPerform, result_arena, length_arena, perform]
    cases env.frames <;> rfl
  | currentProcedure =>
    simp [Arena.perform, Arena.tryPerform, currentProcedure_arena, perform]
  | depth =>
    simp [Arena.perform, Arena.tryPerform, perform, depth]

end Environment

/-! ## Histories -/

theorem Environment.lost_not_mem_history (env : Environment) (ops : List ScopeOperation) :
    .lost ∉ (history perform env ops).1 := by
  induction ops generalizing env with
  | nil => simp [history]
  | cons op ops ih =>
    have hanswer : (env.perform op).1 ≠ .lost := by
      cases op with
      | enter p values =>
        rw [perform]
        cases env.enter p values <;> simp
      | _ => simp [perform]
    simp only [history, List.mem_cons, not_or]
    exact ⟨hanswer.symm, ih _⟩

/-- Operations on the arena of an environment are the operations on the environment. -/
theorem Environment.history_arena (env : Environment) (ops : List ScopeOperation) (steps : Nat) :
    history (Arena.perform (steps + 2)) env.arena ops =
      ((history perform env ops).1, (history perform env ops).2.arena) := by
  obtain ⟨hanswers, harena⟩ := history_of_simulation (f := perform)
    (g := Arena.perform (steps + 2)) (R := fun env a => a = env.arena)
    (by
      rintro env _ op rfl
      rw [env.arena_perform steps op]
      exact ⟨rfl, rfl⟩)
    (s := env) (t := env.arena) rfl ops
  exact Prod.ext hanswers harena

/-- Whatever is done with scopes, one operation after the other, the answers of an environment are
those of the two levels and those of the arena, and so are its scopes in the end. Walks in the arena
need no more than two steps, and no index is without a scope: no answer is `lost`. -/
theorem scope_histories_agree (ops : List ScopeOperation) (steps : Nat) :
    let run := history Environment.perform {} ops
    history Levels.perform {} ops = (run.1, run.2.levels) ∧
      history (Arena.perform (steps + 2)) {} ops = (run.1, run.2.arena) ∧ .lost ∉ run.1 := by
  intro run
  obtain ⟨hlevels, heq, -⟩ := history_of_simulation (f := Environment.perform)
    (g := Levels.perform) (R := fun env levels => levels = env.levels ∧ env.HasResults)
    (by
      rintro env _ op ⟨rfl, h⟩
      obtain ⟨hperform, hresults⟩ := Environment.levels_perform h op
      rw [hperform]
      exact ⟨rfl, rfl, hresults⟩)
    (s := {}) (t := {}) ⟨rfl, List.forall_mem_nil _⟩ ops
  exact ⟨Prod.ext hlevels heq, Environment.history_arena {} ops steps,
    Environment.lost_not_mem_history {} ops⟩

end Blockwork
