import Blockwork.Proofs.Reaching

/-!
# Operands on the stack

The left operand of an operator waits on the stack while the right one is computed. Words stand for
values of both types, and the instructions for an operator do to words what the operator does to
values.

* `Operator.eval_eq`: the result of an instruction stands for the result of the operator.
* `Operator.apply_eq_error_iff`: when an operator fails, and how.
* `runs_push`, `runs_pop`: a word goes to the stack and comes back.
* `Machine.Operated`, `Machine.runs_operator`: the instructions for an operator that does not fail.
* `reaches_operator`: a machine follows an operator; a divisor of zero takes it to the guard.
-/

namespace Blockwork

open Code Machine

/-! ## Words of results -/

def Value.isBoolean : Value → Bool
  | integer _ => false
  | boolean _ => true

theorem Value.word_boolean (P : Prop) [Decidable P] :
    (Value.boolean (decide P)).asWord.toBitVec = if P then 1 else 0 := by
  by_cases h : P <;> simp [asWord, h]

namespace Operator

variable {op : Operator} {a b v : Value}

theorem onIntegers_eq_ok {f : Int32 → Int32 → Value} (h : op.onIntegers f a b = .ok v) :
    ∃ x y, a = .integer x ∧ b = .integer y ∧ f x y = v := by
  cases a <;> cases b <;> simp only [onIntegers, Value.asInteger] at h <;> cases h
  exact ⟨_, _, rfl, rfl, rfl⟩

/-- The word that an arithmetic instruction yields stands for the result of the operator. -/
theorem eval_eq {ar : Arithmetic} (hi : op.instructions = [.arithmetic ar .v0 .t0 .v0])
    (h : op.apply a b = .ok v) :
    v.asWord.toBitVec = ar.eval a.asWord.toBitVec b.asWord.toBitVec := by
  cases op <;> cases hi <;> simp only [apply] at h
  case equal =>
    cases h
    rw [Value.word_boolean, Arithmetic.eval]
    simp only [Int32.toBitVec_inj]
  case notEqual =>
    cases h
    rw [Value.word_boolean, Arithmetic.eval]
    simp only [ne_eq, Int32.toBitVec_inj]
  all_goals obtain ⟨x, y, rfl, rfl, rfl⟩ := onIntegers_eq_ok h
  case add => exact Int32.toBitVec_add
  case subtract => exact Int32.toBitVec_sub
  case multiply => exact Int32.toBitVec_mul
  all_goals
    rw [Value.word_boolean, Arithmetic.eval]
    simp only [Value.asWord, Int32.toInt_toBitVec, Int32.lt_iff_toInt_lt, Int32.le_iff_toInt_le]

/-- Equality takes values of both types, and every other operator takes integers. -/
def takesBooleans : Operator → Bool
  | equal | notEqual => true
  | _ => false

theorem onIntegers_eq_error_iff {f : Int32 → Int32 → Value} {e : RuntimeError} :
    op.onIntegers f a b = .error e ↔ (a.isBoolean ∨ b.isBoolean) ∧ e = .typeMismatch op := by
  cases a <;> cases b <;>
    simp [onIntegers, Value.asInteger, Value.isBoolean, bind, Except.bind, pure, Except.pure,
      eq_comm]

theorem divide_eq_error_iff {e : RuntimeError} : divide.apply a b = .error e ↔
    (a.isBoolean ∨ b.isBoolean) ∧ e = .typeMismatch divide ∨
      a.isBoolean = false ∧ b = .integer 0 ∧ e = .divisionByZero := by
  -- Both operands are looked at before the divisor is compared with zero.
  rcases a with x | x <;> rcases b with y | y
  case integer.integer =>
    by_cases hy : y = 0 <;>
      simp [apply, Value.asInteger, Value.isBoolean, bind, Except.bind, pure, Except.pure, hy,
        throw, throwThe, MonadExceptOf.throw, eq_comm]
  all_goals simp [apply, Value.asInteger, Value.isBoolean, bind, Except.bind, eq_comm]

/-- The two ways in which an operator fails. -/
theorem apply_eq_error_iff {e : RuntimeError} : op.apply a b = .error e ↔
    op.takesBooleans = false ∧ (a.isBoolean ∨ b.isBoolean) ∧ e = .typeMismatch op ∨
      op = divide ∧ a.isBoolean = false ∧ b = .integer 0 ∧ e = .divisionByZero := by
  cases op
  case equal | notEqual => simp [apply, takesBooleans]
  case divide => simpa [takesBooleans] using divide_eq_error_iff
  all_goals simpa [apply, takesBooleans] using onIntegers_eq_error_iff

theorem divide_eq_ok (h : divide.apply a b = .ok v) :
    ∃ x y, a = .integer x ∧ b = .integer y ∧ y ≠ 0 ∧ v = .integer (x / y) := by
  have hne : ∀ e, divide.apply a b ≠ .error e := fun e he => by rw [h] at he; cases he
  rcases a with x | x <;> rcases b with y | y
  case integer.integer =>
    have hy : y ≠ 0 := fun h0 =>
      hne _ (divide_eq_error_iff.2 (.inr ⟨rfl, congrArg Value.integer h0, rfl⟩))
    refine ⟨x, y, rfl, rfl, hy, ?_⟩
    simpa [apply, Value.asInteger, bind, Except.bind, pure, Except.pure, hy, eq_comm] using h
  all_goals exact absurd (divide_eq_error_iff.2 (.inl ⟨by simp [Value.isBoolean], rfl⟩)) (hne _)

end Operator

/-! ## The stack -/

namespace Matches

variable {p : Program} {lines : List Line} {env : Environment} {m : Machine}

/-- A word on the stack, below the variables. -/
theorem push (h : Matches p env m) {a : Int} (hsp : m.get .sp = .stack a) (c : Content) (n : Nat) :
    Matches p env (((m.set .sp (.stack (a - 4))).poke (a - 4) c).goto n) := by
  obtain ⟨h4, habove⟩ := h.aligned hsp
  refine h.move (s := a - 4) rfl h.running (by simp) (by simp) (by omega)
    (show a - 4 ≤ a by omega) habove fun b hb => ?_
  exact Function.update_of_ne (by omega) _ _

end Matches

namespace Machine

variable {lines : List Line} {m : Machine} {a : Int}

theorem runs_push (hc : CodeAt lines m.line Blockwork.push) (hr : m.exitCode = none)
    (hsp : m.get .sp = .stack a) (h4 : 4 ∣ a) :
    m.Runs lines (((m.set .sp (.stack (a - 4))).poke (a - 4) (m.get .v0)).goto (m.line + 2)) := by
  have h₁ : (4 : Int) ∣ a - 4 := by omega
  refine runs_effects hc hr ?_
  simp [effects, effect, moveStack, hsp, write, address?, wordSize, ← Int.sub_eq_add_neg, h₁]

theorem runs_pop (hc : CodeAt lines m.line Blockwork.pop) (hr : m.exitCode = none)
    (hsp : m.get .sp = .stack a) (h4 : 4 ∣ a) :
    m.Runs lines (((m.set .t0 (m.stack a)).set .sp (.stack (a + 4))).goto (m.line + 2)) := by
  refine runs_effects hc hr ?_
  simp [effects, effect, moveStack, hsp, read, address?, wordSize, h4]

end Machine

/-! ## Operators -/

/-- A machine `m'` behind the instructions for an operator. -/
structure Machine.Operated (m : Machine) (op : Operator) (v : Value) (m' : Machine) : Prop where
  line : m'.line = m.line + op.instructions.length
  result : m'.get .v0 = v.content
  registers : ∀ r, r ≠ .v0 → m'.get r = m.get r
  stack : m'.stack = m.stack
  data : m'.data = m.data
  output : m'.output = m.output
  exitCode : m'.exitCode = m.exitCode

section

variable {lines : List Line} {m : Machine} {op : Operator} {a b v : Value}

theorem Machine.operated_set (n : Nat) (hn : n = m.line + op.instructions.length) :
    m.Operated op v ((m.set .v0 v.content).goto n) :=
  ⟨hn, by simp, fun r hr => by simp [hr], rfl, rfl, rfl, rfl⟩

/-- The instructions for an operator that yields a value. -/
theorem Machine.runs_operator (h : op.apply a b = .ok v) (hr : m.exitCode = none)
    (ha : m.get .t0 = a.content) (hb : m.get .v0 = b.content)
    (hc : CodeAt lines m.line (ofInstructions op.instructions)) :
    ∃ m', m.Runs lines m' ∧ m.Operated op v m' := by
  have harithmetic : ∀ ar, op.instructions = [.arithmetic ar .v0 .t0 .v0] →
      ∃ m', m.Runs lines m' ∧ m.Operated op v m' := by
    intro ar hi
    have he : m.effects lines op.instructions = some (m.set .v0 v.content) := by
      simp only [hi, effects, effect, ha, hb, Value.content, Option.bind_some,
        Operator.eval_eq hi h]
    exact ⟨_, runs_effects hc hr he, operated_set _ rfl⟩
  cases op
  case divide =>
    obtain ⟨x, y, rfl, rfl, hy, rfl⟩ := Operator.divide_eq_ok h
    have hword : (Value.integer y).asWord.toBitVec ≠ 0 := fun h0 => hy (Int32.toBitVec_inj.1 h0)
    have htest : CodeAt lines m.line (ofInstructions [.branchEqual .v0 .zero .divisionGuard]) :=
      CodeAt.left (b := ofInstructions [.divide .t0 .v0, .quotient .v0]) hc
    have he : (m.goto (m.line + 1)).effects lines [.divide .t0 .v0, .quotient .v0] =
        some (((m.goto (m.line + 1)).divided (Value.integer (x / y)).content).set .v0
          (Value.integer (x / y)).content) := by
      simp only [effects, effect, get_goto, ha, hb, Value.content, if_neg hword, Option.bind_some,
        divided_quotient]
      simp only [Value.asWord, Int32.toBitVec_div]
    refine ⟨_, (runs_past_branchEqual htest hr hb get_zero hword).trans
      (runs_effects hc.tail hr he), rfl, by simp, fun r hr => by simp [hr], rfl, rfl, rfl, rfl⟩
  all_goals exact harithmetic _ rfl

end

variable {p : Program} {lines : List Line} {s : State} {m : Machine} {op : Operator} {a b : Value}

/-- The label of the guard. -/
theorem Linked.runs_guard (hlink : Linked p lines) :
    ∃ n, labelLine? lines .divisionGuard = some n ∧ CodeAt lines n guardCode := by
  obtain ⟨n, hc⟩ := hlink.guard
  exact ⟨n, labelLine?_of_nodup hlink.labels hc.left.define, hc⟩

/-- A machine follows an operator with its operands in `$t0` and `$v0`. -/
theorem reaches_operator (hlink : Linked p lines) (h : Matches p s.environment m)
    (ha : m.get .t0 = a.content) (hb : m.get .v0 = b.content)
    (hc : CodeAt lines m.line (ofInstructions op.instructions)) :
    Reaches p lines m (Traced.ask (fun _ => op.apply a b) s)
      (Computed m op.instructions.length) := by
  refine .of_ask (fun v hv => ?_) fun hd => ?_
  · obtain ⟨m', hrun, ho⟩ := runs_operator hv h.running ha hb hc
    exact ⟨m', hrun, ho.output, h.registers ho.data ho.exitCode (ho.registers _ (by decide))
      (ho.registers _ (by decide)) ho.stack, ho.line, ho.result,
      .of_eq (ho.registers _ (by decide)) (ho.registers _ (by decide)) ho.stack⟩
  · obtain ⟨-, -, he⟩ | ⟨rfl, -, rfl, -⟩ := Operator.apply_eq_error_iff.1 hd
    · cases he
    · obtain ⟨n, hlabel, hguard⟩ := hlink.runs_guard
      have htest : CodeAt lines m.line (ofInstructions [.branchEqual .v0 .zero .divisionGuard]) :=
        CodeAt.left (b := ofInstructions [.divide .t0 .v0, .quotient .v0]) hc
      exact ⟨_, runs_branchEqual htest h.running hb (get_zero (m := m)) hlabel,
        String.append_empty.symm, h.running, hguard⟩

end Blockwork
