import Blockwork.Proofs.Operands
import Blockwork.Proofs.Routine

/-!
# Machines follow expressions

A machine at the code of an expression comes to its end with the word of the value in `$v0`, and
the stack from `$sp` on is what it was.

* `ExpressionsReach`, `ArgumentsReach`: the statements for runs that go down some number of levels.
* `Pushed`: the machine behind the code of arguments.
* `reaches_binary`, `reaches_call_expression`, `reaches_arguments`: one level more.
-/

namespace Blockwork

open Code Environment Traced

variable {p : Program} {lines : List Line} {fuel : Nat}

/-! ## What runs keep -/

theorem Expression.evaluated_of_trace {e : Expression} {s : State} {r : Traced.Result Value}
    (h : e.trace fuel s = r) : s.environment.Evaluated r.state.environment :=
  h ▸ (evaluated_executed_rules.trace fuel).1 e s

theorem Statement.executed_of_trace {st : Statement} {s : State} {r : Traced.Result Unit}
    (h : st.trace fuel s = r) : s.environment.Executed r.state.environment :=
  h ▸ (evaluated_executed_rules.trace fuel).2.2.1 (fun _ => True) st (fun _ _ => trivial) s

theorem Statement.executed_of_traceAll {ss : List Statement} {s : State} {r : Traced.Result Unit}
    (h : Statement.traceAll fuel ss s = r) : s.environment.Executed r.state.environment :=
  h ▸ (evaluated_executed_rules.trace fuel).2.2.2 (fun _ => True) ss (fun _ _ => trivial) s

theorem Expression.evaluated_of_traceAll {es : List Expression} {s : State}
    {r : Traced.Result (List Value)} (h : Expression.traceAll fuel es s = r) :
    s.environment.Evaluated r.state.environment :=
  h ▸ (evaluated_executed_rules.trace fuel).2.1 es s

theorem Expression.layout_of_trace {e : Expression} {s : State} {r : Traced.Result Value}
    (h : e.trace fuel s = r) : r.state.environment.layout p = s.environment.layout p :=
  (Expression.evaluated_of_trace h).executed.layout

/-! ## Statements of the results -/

/-- Machines follow the runs of expressions that go down some number of levels. -/
def ExpressionsReach (p : Program) (lines : List Line) (fuel : Nat) : Prop :=
  ∀ (e : Expression) (s : State) (m : Machine),
    let code := e.code ⟨p.environment, s.environment.layout p⟩
    Matches p s.environment m → CodeAt lines m.line code →
    Reaches p lines m (e.trace fuel s) (Computed m code.lines.length)

/-- The machine behind the code of arguments, which has `n` lines: their words are on the stack,
which ended at `a`, the last one nearest. -/
structure Pushed (m : Machine) (a : Int) (n : Nat) (values : List Value) (m' : Machine) : Prop where
  line : m'.line = m.line + n
  sp : m'.get .sp = .stack (a - 4 * values.length)
  fp : m'.get .fp = m.get .fp
  words : ∀ (j : Nat) v, values.reverse[j]? = some v →
    m'.stack (a - 4 * values.length + 4 * j) = v.content
  stack : ∀ b, a ≤ b → m'.stack b = m.stack b

/-- Machines follow the runs of arguments that go down some number of levels. -/
def ArgumentsReach (p : Program) (lines : List Line) (fuel : Nat) : Prop :=
  ∀ (es : List Expression) (s : State) (m : Machine) (a : Int),
    let code := Expression.argumentCode ⟨p.environment, s.environment.layout p⟩ es
    Matches p s.environment m → CodeAt lines m.line code → m.get .sp = .stack a →
    Reaches p lines m (Expression.traceAll fuel es s) fun values m' =>
      values.length = es.length ∧ Pushed m a code.lines.length values m'

/-! ## Operators -/

/-- A word that waits on the stack while something else is computed. -/
theorem Keeps.waiting {m m' : Machine} {a : Int} {c : Content} {n : Nat}
    (h : Keeps (fun _ => False) (((m.set .sp (.stack (a - 4))).poke (a - 4) c).goto n) m') :
    m'.stack (a - 4) = c ∧ m'.get .sp = .stack (a - 4) ∧ m'.get .fp = m.get .fp ∧
      ∀ b, a ≤ b → m'.stack b = m.stack b := by
  have hsp' : m'.get .sp = .stack (a - 4) := h.sp.trans (by simp)
  refine ⟨?_, hsp', h.fp.trans (by simp), fun b hb => ?_⟩
  · rw [h.stack (a - 4) (a - 4) (by simp) (Int.le_refl _) not_false]
    simp
  · rw [h.stack (a - 4) b (by simp) (by omega) not_false]
    simp [Function.update_of_ne (show b ≠ a - 4 by omega)]

theorem reaches_binary (hlink : Linked p lines) (ih : ExpressionsReach p lines fuel)
    {left right : Expression} {op : Operator} {s : State} {m : Machine}
    (h : Matches p s.environment m) (hc : CodeAt lines m.line
      ((Expression.binary left op right).code ⟨p.environment, s.environment.layout p⟩)) :
    Reaches p lines m ((Expression.binary left op right).trace (fuel + 1) s)
      (Computed m ((Expression.binary left op right).code
        ⟨p.environment, s.environment.layout p⟩).lines.length) := by
  simp only [Expression.code, append_assoc] at hc ⊢
  obtain ⟨a, hsp, h4, habove⟩ := h.sp
  have hpush := hc.right
  have hright := hpush.right
  have hpop := hright.right
  rw [hc.length_append, hpush.length_append, hright.length_append, hpop.length_append]
  rw [Expression.trace]
  refine .bind (ih left s m h hc.left) ?_
  rintro x t _ m₁ ht hm₁ ⟨hl₁, hv₁, hk₁⟩
  have hlt : t.environment.layout p = s.environment.layout p := Expression.layout_of_trace ht
  have hsp₁ := hk₁.sp.trans hsp
  rw [← hl₁] at hpush hright hpop
  refine .steps (Machine.runs_push hpush.left hm₁.running hsp₁ h4) rfl ?_
  rw [hv₁]
  refine .bind (ih right t _ (hm₁.push hsp₁ _ _) (by rw [hlt]; exact hright.left)) ?_
  rintro y u _ m₂ hu hm₂ ⟨hl₂, hv₂, hk₂⟩
  obtain ⟨hx, hsp₂, hfp₂, hstack₂⟩ := hk₂.waiting
  have hlu : u.environment.layout p = t.environment.layout p := Expression.layout_of_trace hu
  rw [hlt] at hl₂
  have hl₂' : m₂.line = m₁.line + push.lines.length +
      (right.code ⟨p.environment, s.environment.layout p⟩).lines.length := hl₂
  rw [← hl₂'] at hpop
  have hrun := Machine.runs_pop hpop.left hm₂.running hsp₂ (by omega)
  rw [hx, Int.sub_add_cancel] at hrun
  refine .steps hrun rfl (.mono (reaches_operator hlink (hm₂.move rfl hm₂.running ?_ (s := a)
    ?_ h4 (Int.le_refl a) ?_ fun _ _ => rfl) ?_ ?_ hpop.right) ?_)
  · simp
  · simp
  · rw [hlu, hlt]
    exact habove.congr (hfp₂.trans hk₁.fp)
  · simp
  · simpa using hv₂
  · rintro v m' ⟨hl, hv, hk⟩
    refine ⟨?_, hv, hk.sp.trans (by simp [hsp]), hk.fp.trans ?_, fun b c hb hbc _ => ?_⟩
    · rw [hl, Machine.goto_line, hl₂', hl₁, lines_ofInstructions, List.length_map]
      simp only [pop, lines_ofInstructions, List.length_map, List.length_cons, List.length_nil]
      omega
    · simp [hfp₂, hk₁.fp]
    · obtain rfl : a = b := by rw [hsp] at hb; cases hb; rfl
      rw [hk.stack a c (by simp) hbc not_false, Machine.goto_stack, Machine.set_stack,
        Machine.set_stack, hstack₂ c hbc, hk₁.stack a c hsp hbc not_false]

/-! ## Arguments -/

/-- The first argument is deepest. -/
theorem Pushed.cons {m m₁ m' : Machine} {a : Int} {k n n' : Nat} {v : Value} {values : List Value}
    (hsp : m.get .sp = .stack a) (h₁ : Computed m k v m₁)
    (h : Pushed (((m₁.set .sp (.stack (a - 4))).poke (a - 4) v.content).goto (m₁.line + n)) (a - 4)
      n' values m') : Pushed m a (k + n + n') (v :: values) m' := by
  have hstack : ∀ b, a ≤ b → m'.stack b = m.stack b := fun b hb => by
    rw [h.stack b (by omega), ← h₁.2.2.stack a b hsp hb not_false]
    simp [Function.update_of_ne (show b ≠ a - 4 by omega)]
  have hend : a - 4 * ((v :: values).length : Int) = a - 4 - 4 * values.length := by
    rw [List.length_cons]
    omega
  refine ⟨?_, by rw [hend]; exact h.sp, h.fp.trans (by simp [h₁.2.2.fp]), fun j w hj => ?_, hstack⟩
  · rw [h.line, Machine.goto_line, h₁.1]
    omega
  · rw [hend]
    rw [List.reverse_cons] at hj
    by_cases hlt : j < values.reverse.length
    · exact h.words j w (by rwa [List.getElem?_append_left hlt] at hj)
    · obtain ⟨hj, rfl⟩ : j = values.length ∧ v = w := by
        rw [List.getElem?_append_right (by omega), List.getElem?_singleton] at hj
        split at hj
        next h0 => exact ⟨by simp at hlt h0; omega, by simpa using hj⟩
        next => cases hj
      rw [show a - 4 - 4 * (values.length : Int) + 4 * j = a - 4 by omega,
        h.stack _ (Int.le_refl _)]
      simp

theorem reaches_arguments (ihe : ExpressionsReach p lines fuel)
    (ihes : ArgumentsReach p lines fuel) : ArgumentsReach p lines (fuel + 1) := by
  intro es s m a code h hc hsp
  cases es with
  | nil =>
    rw [Expression.traceAll]
    refine .of_pure .refl rfl h ⟨rfl, rfl, ?_, rfl, by simp, fun _ _ => rfl⟩
    simpa using hsp
  | cons e es =>
    have h4 : 4 ∣ a := (h.aligned hsp).1
    simp only [code, Expression.argumentCode, append_assoc] at hc ⊢
    have hpush := hc.right
    have hrest := hpush.right
    rw [hc.length_append, hpush.length_append, ← Nat.add_assoc]
    rw [Expression.traceAll]
    refine .bind (ihe e s m h hc.left) ?_
    intro v t _ m₁ ht hm₁ hv
    obtain ⟨hl₁, hv₁, hk₁⟩ := id hv
    have hlt : t.environment.layout p = s.environment.layout p := Expression.layout_of_trace ht
    have hsp₁ := hk₁.sp.trans hsp
    rw [← hl₁] at hpush hrest
    refine .steps (Machine.runs_push hpush.left hm₁.running hsp₁ h4) rfl ?_
    rw [hv₁]
    refine .bind (ihes es t _ (a - 4) (hm₁.push hsp₁ _ _) (by rw [hlt]; exact hrest) (by simp)) ?_
    rintro vs u _ m₂ - hm₂ ⟨hcount, hpushed⟩
    rw [hlt] at hpushed
    exact .of_pure .refl rfl hm₂ ⟨by simp [hcount], .cons hsp hv hpushed⟩

/-! ## Calls -/

/-- A call without an obstacle is that of a declared procedure. -/
theorem Scope.checkCall_eq_empty {scope : Scope} {name : String} {count : Nat}
    (h : (scope.checkCall name count).obstacle = none) : ∃ q,
      scope.environment.getProcedure name = .ok q ∧ scope.checkCall name count = empty := by
  unfold checkCall at h ⊢
  split at h
  next => cases h
  next q hq =>
    split at h
    next hcount => exact ⟨q, hq, if_pos hcount⟩
    next => cases h

/-- The arguments are given back. -/
theorem Machine.runs_release {m : Machine} {es : List Expression} {a : Int}
    (hc : CodeAt lines m.line
      (if es.isEmpty then empty else ofInstructions [.release (wordSize * es.length)]))
    (hr : m.exitCode = none) (hsp : m.get .sp = .stack (a - 4 * es.length)) :
    m.Runs lines ((m.set .sp (.stack a)).goto (m.line +
      (if es.isEmpty then empty
        else ofInstructions [.release (wordSize * es.length)]).lines.length)) := by
  cases es with
  | nil =>
    have hset : m.set .sp (.stack a) = m := by
      have hreg : m.registers .sp = .stack a := by simpa [get] using hsp
      rw [set, ← hreg, Function.update_eq_self]
    rw [hset]
    exact .refl
  | cons e es =>
    refine runs_effects hc hr ?_
    simp [effects, effect, moveStack, hsp, wordSize]

theorem reaches_call_expression (hlink : Linked p lines) (ihes : ArgumentsReach p lines fuel)
    (ihss : ListsReach p lines fuel) {name : String} {arguments : List Expression} {s : State}
    {m : Machine} (h : Matches p s.environment m) (hc : CodeAt lines m.line
      ((Expression.call name arguments).code ⟨p.environment, s.environment.layout p⟩)) :
    Reaches p lines m ((Expression.call name arguments).trace (fuel + 1) s)
      (Computed m ((Expression.call name arguments).code
        ⟨p.environment, s.environment.layout p⟩).lines.length) := by
  simp only [Expression.code, append_assoc] at hc ⊢
  obtain ⟨q, hq, hcheck⟩ := Scope.checkCall_eq_empty hc.left.obstacle
  rw [hcheck, empty_append] at hc ⊢
  obtain rfl := (getProcedure_eq_ok hq).2
  have hjump := hc.right
  have hrelease := hjump.right
  rw [hc.length_append, hjump.length_append]
  obtain ⟨a, hsp, h4, habove⟩ := h.sp
  have hask : s.environment.getProcedure q.name = .ok q := by
    rw [getProcedure_congr h.within.procedures]
    exact hq
  rw [Expression.trace, ask_bind hask]
  refine .bind (ihes arguments s m a h hc.left hsp) ?_
  rintro values t _ m₁ ht hm₁ ⟨hcount, hpushed⟩
  have het := Expression.evaluated_of_traceAll ht
  have hlt : t.environment.layout p = s.environment.layout p := het.executed.layout
  rw [← hpushed.line] at hjump hrelease
  have hback : a - 4 * (values.length : Int) + 4 * values.length = a := by omega
  refine .followed (reaches_call hlink ihss hm₁ (by rwa [getProcedure_congr het.procedures])
    hpushed.sp ?_ hpushed.words hjump.left) ?_
  · rw [hlt, hback]
    exact habove.congr hpushed.fp
  rintro v m₂ hm₂ ⟨hl₂, hv₂, hk₂⟩
  rw [hback] at hk₂
  have hline : m₂.line =
      m₁.line + (ofInstructions [.jumpAndLink (.procedure q.name)]).lines.length := hl₂
  rw [← hline] at hrelease
  have hsp₂ : m₂.get .sp = .stack (a - 4 * arguments.length) := by
    rw [hk₂.sp, hpushed.sp, hcount]
  have hfp₂ := hk₂.fp.trans hpushed.fp
  have hstack₂ : ∀ b, a ≤ b → m₂.stack b = m.stack b := fun b hb => by
    rw [hk₂.stack _ b hpushed.sp (by omega) (by omega), hpushed.stack b hb]
  refine ⟨_, Machine.runs_release hrelease hm₂.running hsp₂, rfl, ?_, ?_, ?_, ?_, ?_, ?_⟩
  · refine hm₂.move rfl hm₂.running (s := a) (by simp) (by simp) h4 (Int.le_refl a) ?_
      fun _ _ => rfl
    have hbody : ∀ s : State, s.environment.Executed
        (Statement.traceAll fuel q.body s).state.environment :=
      fun _ => Statement.executed_of_traceAll rfl
    have hcall : t.environment.Evaluated
        (Traced.call q values (Statement.traceAll fuel q.body) t).state.environment :=
      evaluated_call hbody t
    rw [hcall.executed.layout, hlt]
    exact habove.congr hfp₂
  · rw [Machine.goto_line, hline, hpushed.line]
    omega
  · simpa using hv₂
  · simp [hsp]
  · simp [hfp₂]
  · intro b c hb hbc _
    obtain rfl : a = b := by rw [hsp] at hb; cases hb; rfl
    exact hstack₂ c hbc

/-! ## Expressions -/

theorem reaches_expressions (hlink : Linked p lines) (ihe : ExpressionsReach p lines fuel)
    (ihes : ArgumentsReach p lines fuel) (ihss : ListsReach p lines fuel) :
    ExpressionsReach p lines (fuel + 1) := by
  intro e s m code h hc
  cases e with
  | number n =>
    have hword : BitVec.ofInt 32 n.toInt = n.toBitVec := by
      rw [← Int32.toInt_toBitVec, BitVec.ofInt_toInt]
    have he : m.effects lines [.loadImmediate .v0 n.toInt] =
        some (m.set .v0 (Value.integer n).content) := by
      simp [Machine.effects, Machine.effect, Value.content, Value.asWord, hword]
    have hrun := Machine.runs_effects hc h.running he
    rw [Expression.trace]
    exact .of_pure hrun rfl (h.registers rfl rfl (by simp) (by simp) rfl)
      ⟨rfl, by simp, .of_eq (by simp) (by simp) rfl⟩
  | «variable» name =>
    rw [Expression.trace]
    refine .of_ask (fun v hv => ?_) fun he => ?_
    · have hget : s.environment.get? name = some v := by
        unfold Environment.get at hv
        split at hv <;> cases hv
        assumption
      have he : m.effects lines [.load .v0 ((s.environment.layout p).locate name)] =
          some (m.set .v0 v.content) := by
        simp [Machine.effects, Machine.effect, h.load hget]
      have hrun := Machine.runs_effects hc h.running he
      exact ⟨_, hrun, rfl, h.registers rfl rfl (by simp) (by simp) rfl,
        rfl, by simp, .of_eq (by simp) (by simp) rfl⟩
    · unfold Environment.get at he
      split at he <;> cases he
  | binary left op right => exact reaches_binary hlink ihe h hc
  | call name arguments => exact reaches_call_expression hlink ihes ihss h hc

end Blockwork
