import Blockwork.Program
import Blockwork.Console

/-!
# Execution

A program is run by walking its tree. Loops and calls need not end, so a run has a number of levels
that it may go down; a run that needs more of them is `exhausted`, which is no error of the program.

* `Outcome`, `State`, `Execution`: what a step comes to, what it changes, and steps in sequence. The
  state stays what it is at the moment of an error.
* `Expression.evaluate`, `Statement.execute`: the meaning of trees. Operands go from left to right.
* `Execution.call`: a procedure's body runs in a frame of its own, which is closed in any case.
* `Program.run`: a run from the start of a program.
-/

namespace Blockwork

/-! ## Steps -/

/-- What a step comes to. -/
inductive Outcome (α : Type) where
  | done (result : α)
  | failed (error : RuntimeError)
  | exhausted
  deriving DecidableEq, Repr

/-- What steps change. -/
structure State where
  environment : Environment := {}
  console : Console := {}

/-- A step that yields a result. -/
def Execution (α : Type) : Type := State → Outcome α × State

namespace Execution

variable {α β : Type}

/-- One step after another. The second is left out unless the first is done. -/
@[inline] protected def bind (x : Execution α) (f : α → Execution β) : Execution β := fun s =>
  match x s with
  | (.done a, s) => f a s
  | (.failed e, s) => (.failed e, s)
  | (.exhausted, s) => (.exhausted, s)

@[inline] instance : Monad Execution where
  pure a s := (.done a, s)
  bind := Execution.bind

/-- A result that depends on nothing else, or an error. -/
def ofExcept (x : Except RuntimeError α) : Execution α := fun s =>
  match x with
  | .ok a => (.done a, s)
  | .error e => (.failed e, s)

/-- A result that depends on the environment. -/
def ask (f : Environment → Except RuntimeError α) : Execution α := fun s =>
  ofExcept (f s.environment) s

/-- The run goes no further down. -/
def exhausted : Execution α := fun s => (.exhausted, s)

/-- Gives a variable a value. -/
def assign (name : String) (value : Value) : Execution Unit := fun s =>
  (.done (), { s with environment := s.environment.set name value })

/-- Reads a number for a variable. -/
def read (name : String) : Execution Int32 := fun s =>
  let (result, console) := s.console.readInteger name
  ofExcept result { s with console }

/-- Shows a value. -/
def display (value : Value) : Execution Unit := fun s =>
  let (result, console) := s.console.display value
  ofExcept result { s with console }

/-- Runs the body of a procedure in a new frame. The frame is closed however the body ends. -/
def call (p : Procedure) (values : List Value) (body : Execution Unit) : Execution Value := fun s =>
  match s.environment.enter p values with
  | .error e => (.failed e, s)
  | .ok inner =>
    match body { s with environment := inner } with
    | (outcome, s) =>
      let closed := { s with environment := s.environment.leave }
      match outcome with
      | .done () => (.done s.environment.result, closed)
      | .failed e => (.failed e, closed)
      | .exhausted => (.exhausted, closed)

end Execution

/-! ## Trees -/

open Execution

mutual

/-- The value of an expression. -/
def Expression.evaluate (fuel : Nat) (e : Expression) : Execution Value :=
  match fuel with
  | 0 => exhausted
  | fuel + 1 =>
    match e with
    | .number n => pure (.integer n)
    | .variable name => ask fun env => env.get name
    | .binary left op right => do
      let a ← left.evaluate fuel
      let b ← right.evaluate fuel
      ofExcept (op.apply a b)
    | .call name arguments => do
      let p ← ask fun env => env.getProcedure name
      let values ← Expression.evaluateAll fuel arguments
      call p values (Statement.executeAll fuel p.body)

/-- The values of expressions, in order. -/
def Expression.evaluateAll (fuel : Nat) (es : List Expression) : Execution (List Value) :=
  match fuel with
  | 0 => exhausted
  | fuel + 1 =>
    match es with
    | [] => pure []
    | e :: es => do
      let v ← e.evaluate fuel
      let vs ← Expression.evaluateAll fuel es
      pure (v :: vs)

/-- The effect of a statement. The value of a `return` is dropped: the result of a procedure is what
is assigned to its name. -/
def Statement.execute (fuel : Nat) (s : Statement) : Execution Unit :=
  match fuel with
  | 0 => exhausted
  | fuel + 1 =>
    match s with
    | .assign name value => do
      let v ← value.evaluate fuel
      assign name v
    | .block body => Statement.executeAll fuel body
    | .branch condition onTrue onFalse => do
      let v ← condition.evaluate fuel
      Statement.executeAll fuel (if v.isTruthy then onTrue else onFalse)
    | .loop condition body => do
      let v ← condition.evaluate fuel
      if v.isTruthy then
        Statement.executeAll fuel body
        Statement.execute fuel (.loop condition body)
      else pure ()
    | .read name => do
      let n ← read name
      assign name (.integer n)
    | .display value => do
      let v ← value.evaluate fuel
      display v
    | .return value => do
      let _ ← value.evaluate fuel
      pure ()
    | .procedure .. => pure ()

/-- The effects of statements, in order. -/
def Statement.executeAll (fuel : Nat) (ss : List Statement) : Execution Unit :=
  match fuel with
  | 0 => exhausted
  | fuel + 1 =>
    match ss with
    | [] => pure ()
    | s :: ss => do
      s.execute fuel
      Statement.executeAll fuel ss

end

/-! ## Programs -/

/-- Runs the tree of a program in the environment and on the console of a state. -/
def Program.execute (fuel : Nat) (p : Program) : Execution Unit :=
  Statement.executeAll fuel p.tree

/-- Runs a program from its start. -/
def Program.run (fuel : Nat) (p : Program) (console : Console) : Outcome Unit × State :=
  p.execute fuel ⟨p.environment, console⟩

end Blockwork
