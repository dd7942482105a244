import Blockwork.Proofs.Operands

/-!
# Operators on values and on words

An operator has two meanings: what it makes of two values, and what its instructions make of the
words of the two values. Both are 32-bit arithmetic, and they are the same wherever there is a
result. A result of the mathematics that does not fit is reduced to a word; nothing else happens to
it, not even when the least integer is divided by minus one.

* `Operator.exact`: the result in the integers, without bounds.
* `Operator.asWord_toInt_apply`: a result is the word of the exact one.
* `instructions_follow_operators`: when an operator fails, and that its instructions leave the word
  of its result if it does not.
-/

namespace Blockwork

open Code Machine

namespace Operator

/-- The result of an operator in the integers. Division goes toward zero, and a comparison yields
one or zero. -/
def exact (op : Operator) (a b : Int) : Int :=
  match op with
  | equal => if a = b then 1 else 0
  | notEqual => if a ≠ b then 1 else 0
  | add => a + b
  | subtract => a - b
  | multiply => a * b
  | divide => a.tdiv b
  | less => if a < b then 1 else 0
  | lessEqual => if a ≤ b then 1 else 0
  | greater => if b < a then 1 else 0
  | greaterEqual => if b ≤ a then 1 else 0

variable {op : Operator} {a b v : Value}

private theorem toInt_boolean {P Q : Prop} [Decidable P] [Decidable Q] (h : P ↔ Q) :
    (Value.boolean (decide P)).asWord.toInt = (if Q then 1 else 0 : Int).bmod Int32.size := by
  by_cases hq : Q <;> simp [Value.asWord, h, hq, Int32.size]

/-- The word of a result is the exact result of the words, reduced to 32 bits. -/
theorem asWord_toInt_apply (h : op.apply a b = .ok v) :
    v.asWord.toInt = (op.exact a.asWord.toInt b.asWord.toInt).bmod Int32.size := by
  cases op
  case equal =>
    cases h
    exact toInt_boolean Int32.toInt_inj.symm
  case notEqual =>
    cases h
    exact toInt_boolean (not_congr Int32.toInt_inj.symm)
  case divide =>
    obtain ⟨x, y, rfl, rfl, -, rfl⟩ := divide_eq_ok h
    exact Int32.toInt_div x y
  all_goals obtain ⟨x, y, rfl, rfl, rfl⟩ := onIntegers_eq_ok h
  case add => exact Int32.toInt_add x y
  case subtract => exact Int32.toInt_sub x y
  case multiply => exact Int32.toInt_mul x y
  case less => exact toInt_boolean Int32.lt_iff_toInt_lt
  case lessEqual => exact toInt_boolean Int32.le_iff_toInt_le
  case greater => exact toInt_boolean Int32.lt_iff_toInt_lt
  case greaterEqual => exact toInt_boolean Int32.le_iff_toInt_le

end Operator

theorem Value.isTruthy_iff_content (v : Value) : v.isTruthy ↔ v.content = .word 1 := by
  rw [isTruthy_eq, decide_eq_true_iff, content, Content.word.injEq]
  exact Int32.toBitVec_inj.symm

/-- An operator fails only for a boolean where it takes integers, and for a divisor of zero between
integers. Where it does not fail, its instructions take the words of its operands to the word of its
result and change nothing else, and its result passes as a condition if that word is one. -/
theorem instructions_follow_operators (op : Operator) (a b : Value) :
    (∀ e, op.apply a b = .error e ↔
      op.takesBooleans = false ∧ (a.isBoolean ∨ b.isBoolean) ∧ e = .typeMismatch op ∨
      op = .divide ∧ a.isBoolean = false ∧ b = .integer 0 ∧ e = .divisionByZero) ∧
    ∀ v, op.apply a b = .ok v →
      v.asWord.toInt = (op.exact a.asWord.toInt b.asWord.toInt).bmod Int32.size ∧
      ∀ (lines : List Line) (m : Machine), m.exitCode = none →
        m.get .t0 = .word a.asWord.toBitVec → m.get .v0 = .word b.asWord.toBitVec →
        CodeAt lines m.line (ofInstructions op.instructions) →
        ∃ m', m.Runs lines m' ∧ m.Operated op v m' ∧
          m'.get .v0 = .word v.asWord.toBitVec ∧ (v.isTruthy ↔ m'.get .v0 = .word 1) := by
  refine ⟨fun e => Operator.apply_eq_error_iff, fun v hv => ⟨Operator.asWord_toInt_apply hv, ?_⟩⟩
  intro lines m hr ha hb hc
  obtain ⟨m', hrun, ho⟩ := runs_operator hv hr ha hb hc
  exact ⟨m', hrun, ho, ho.result, by rw [ho.result]; exact v.isTruthy_iff_content⟩

/-- The least integer divided by minus one is the least integer, on values and on a machine. -/
theorem divide_least_by_minus_one :
    let a := Value.integer Int32.minValue
    let lines := Operator.divide.instructions.map Line.instruction
    let m : Machine :=
      { line := 0
        registers := fun r => if r = .t0 then a.content else (Value.integer (-1)).content
        quotient := .word 0
        stack := fun _ => .word 0
        data := fun _ => none }
    Operator.divide.apply a (.integer (-1)) = .ok a ∧
      ∃ m', m.Runs lines m' ∧ m'.line = 3 ∧ m'.get .v0 = a.content := by
  intro a lines m
  have happly : Operator.divide.apply a (.integer (-1)) = .ok a := by decide
  obtain ⟨-, hmachine⟩ := (instructions_follow_operators .divide a (.integer (-1))).2 a happly
  obtain ⟨m', hrun, ho, hword, -⟩ := hmachine lines m rfl rfl rfl ⟨rfl, List.prefix_rfl⟩
  exact ⟨happly, m', hrun, ho.line, hword⟩

end Blockwork
