import Blockwork.Tree.Basic
import Blockwork.Value

/-!
# Environments

An environment holds what names mean while a program runs: the variables of the outermost level, a
frame of variables for each call under way, and the declared procedures. A procedure sees its own
frame and the outermost level, never the frames of its callers.

* `Bindings`: names with values; `get?_set` says what a write changes.
* `Environment.get?`, `set`: look-up and update. An update goes to the binding that a look-up finds;
  a new name is bound in the innermost frame. `Environment.get?_set` says what a look-up finds then.
* `Environment.enter`, `leave`, `result`: a call's frame starts with the procedure's own name bound
  to zero and then the parameters; the result is the final value of that name. `leave_of_enter`
  says that closing a call undoes opening it.
* `Environment.declareProcedure`, `getProcedure`: the table of procedures, whose names differ.
-/

namespace Blockwork

/-! ## Bindings -/

/-- Names with values. No name occurs twice, and a name keeps its place when its value changes. -/
structure Bindings where
  entries : List (String × Value) := []
  deriving DecidableEq, Repr

namespace Bindings

/-- The value of a name. -/
def get? (b : Bindings) (name : String) : Option Value :=
  b.entries.lookup name

/-- The entries with a name bound anew. -/
def setEntry (name : String) (value : Value) : List (String × Value) → List (String × Value)
  | [] => [(name, value)]
  | (x, v) :: entries =>
    if name = x then (x, value) :: entries else (x, v) :: setEntry name value entries

/-- Gives a name a value. -/
def set (b : Bindings) (name : String) (value : Value) : Bindings :=
  ⟨setEntry name value b.entries⟩

/-- Gives values to names, one after the other: of two values for one name the later one stays. -/
def setAll (b : Bindings) (entries : List (String × Value)) : Bindings :=
  entries.foldl (fun b entry => b.set entry.1 entry.2) b

theorem get?_set (b : Bindings) (name : String) (value : Value) (x : String) :
    (b.set name value).get? x = if x = name then some value else b.get? x := by
  obtain ⟨entries⟩ := b
  simp only [get?, set]
  fun_induction setEntry name value entries <;> grind

end Bindings

/-! ## Environments -/

/-- The variables of one call. -/
structure Frame where
  /-- The name of the called procedure. -/
  procedure : String
  bindings : Bindings
  deriving DecidableEq, Repr

/-- What names mean. -/
structure Environment where
  globals : Bindings := {}
  /-- The calls under way, the innermost first. -/
  frames : List Frame := []
  /-- In the order of their declarations. -/
  procedures : List Procedure := []
  /-- The names of variables that the program mentions, in the order of their first mention. They
  need not have values. -/
  declared : List String := []
  deriving DecidableEq, Repr

namespace Environment

/-! ### Variables -/

/-- The value of a name: the innermost frame comes before the outermost level. -/
def get? (env : Environment) (name : String) : Option Value :=
  (env.frames.head?.bind fun frame => frame.bindings.get? name).or (env.globals.get? name)

/-- The value of a name, or the error that it has none. -/
def get (env : Environment) (name : String) : Except RuntimeError Value :=
  match env.get? name with
  | some value => .ok value
  | none => .error (.undefinedVariable name)

/-- Gives a name a value, where the name is bound or else in the innermost frame. -/
def set (env : Environment) (name : String) (value : Value) : Environment :=
  match env.frames with
  | [] => { env with globals := env.globals.set name value }
  | frame :: outer =>
    if (frame.bindings.get? name).isNone && (env.globals.get? name).isSome then
      { env with globals := env.globals.set name value }
    else
      { env with frames := { frame with bindings := frame.bindings.set name value } :: outer }

theorem get?_set (env : Environment) (name : String) (value : Value) (x : String) :
    (env.set name value).get? x = if x = name then some value else env.get? x := by
  obtain ⟨globals, frames, procedures, declared⟩ := env
  cases frames with
  | nil => simp [get?, set, Bindings.get?_set]
  | cons frame outer =>
    simp only [get?, set]
    split
    next h =>
      rw [Bool.and_eq_true, Option.isNone_iff_eq_none] at h
      by_cases hx : x = name
      · subst hx
        simp [Bindings.get?_set, h.1]
      · simp [Bindings.get?_set, hx]
    next => by_cases hx : x = name <;> simp [Bindings.get?_set, hx]

/-- Notes that the program mentions a variable. -/
def declareVariable (env : Environment) (name : String) : Environment :=
  if env.declared.contains name then env else { env with declared := env.declared ++ [name] }

/-! ### Procedures -/

/-- The declaration of a procedure. -/
def getProcedure (env : Environment) (name : String) : Except RuntimeError Procedure :=
  match env.procedures.find? fun p => p.name = name with
  | some p => .ok p
  | none => .error (.undefinedProcedure name)

/-- Adds a procedure to the table, unless its name is taken. -/
def declareProcedure (env : Environment) (p : Procedure) : Except RuntimeError Environment :=
  if env.procedures.any fun q => q.name = p.name then .error (.duplicateProcedure p.name)
  else .ok { env with procedures := env.procedures ++ [p] }

/-! ### Calls -/

/-- The frame at the start of a call. A parameter named like the procedure replaces its result. -/
def newFrame (p : Procedure) (values : List Value) : Frame :=
  ⟨p.name, Bindings.setAll ⟨[(p.name, .integer 0)]⟩ (p.parameters.zip values)⟩

/-- Opens a call. It needs as many values as there are parameters. -/
def enter (env : Environment) (p : Procedure) (values : List Value) :
    Except RuntimeError Environment :=
  if p.parameters.length = values.length then
    .ok { env with frames := newFrame p values :: env.frames }
  else .error (.arityMismatch p.name p.parameters.length values.length)

/-- Closes the innermost call. -/
def leave (env : Environment) : Environment :=
  { env with frames := env.frames.tail }

theorem leave_of_enter {env inner : Environment} {p : Procedure} {values : List Value}
    (h : env.enter p values = .ok inner) : inner.leave = env := by
  unfold enter at h
  split at h
  · cases h
    rfl
  · cases h

/-- The procedure of the innermost call. -/
def currentProcedure? (env : Environment) : Option String :=
  env.frames.head?.map Frame.procedure

/-- The result of the innermost call so far: the value of the procedure's own name. -/
def result (env : Environment) : Value :=
  (env.currentProcedure?.bind env.get?).getD (.integer 0)

/-- The number of levels, the outermost one included. -/
def depth (env : Environment) : Nat :=
  env.frames.length + 1

end Environment

end Blockwork
