import Blockwork.Error

/-!
# Values

A value is a 32-bit integer or a boolean. Compiled code knows words only, so booleans have a word
form, and the comparisons for equality and the test of a condition go by it.

* `Value.asWord`, `Value.isTruthy`, `Value.text`.
* `Operator.apply`: the result of an operator, or why there is none.
-/

namespace Blockwork

/-- What an expression yields. -/
inductive Value where
  | integer (value : Int32)
  | boolean (value : Bool)
  deriving DecidableEq, Repr

namespace Value

/-- The word that stands for a value in compiled code. -/
def asWord : Value → Int32
  | integer n => n
  | boolean b => if b then 1 else 0

/-- A condition holds if it is `true` or the integer one. -/
def isTruthy : Value → Bool
  | integer n => n = 1
  | boolean b => b

theorem isTruthy_eq (v : Value) : v.isTruthy = decide (v.asWord = 1) := by
  cases v with
  | integer n => rfl
  | boolean b => cases b <;> rfl

/-- The name of the type of a value. -/
def typeName : Value → String
  | integer _ => "integer"
  | boolean _ => "boolean"

/-- What `display` writes. -/
def text : Value → String
  | integer n => String.ofList (decimal n.toInt)
  | boolean true => "true"
  | boolean false => "false"

/-- The integer that an operator works on. -/
def asInteger (op : Operator) : Value → Except RuntimeError Int32
  | integer n => .ok n
  | boolean _ => .error (.typeMismatch op)

end Value

namespace Operator

/-- Applies a function to two integers. -/
def onIntegers (op : Operator) (f : Int32 → Int32 → Value) (left right : Value) :
    Except RuntimeError Value := do
  let a ← left.asInteger op
  let b ← right.asInteger op
  return f a b

/-- The result of an operator. Equality compares words, so it accepts all values; the other
operators accept integers. Arithmetic wraps around, and division goes toward zero. -/
def apply (op : Operator) (left right : Value) : Except RuntimeError Value :=
  match op with
  | equal => .ok (.boolean (left.asWord = right.asWord))
  | notEqual => .ok (.boolean (left.asWord ≠ right.asWord))
  | add => op.onIntegers (fun a b => .integer (a + b)) left right
  | subtract => op.onIntegers (fun a b => .integer (a - b)) left right
  | multiply => op.onIntegers (fun a b => .integer (a * b)) left right
  | divide => do
    let a ← left.asInteger op
    let b ← right.asInteger op
    if b = 0 then throw .divisionByZero
    return .integer (a / b)
  | less => op.onIntegers (fun a b => .boolean (a < b)) left right
  | lessEqual => op.onIntegers (fun a b => .boolean (a ≤ b)) left right
  | greater => op.onIntegers (fun a b => .boolean (b < a)) left right
  | greaterEqual => op.onIntegers (fun a b => .boolean (b ≤ a)) left right

end Operator

end Blockwork
