import Blockwork.Proofs.FrameSlots
import Blockwork.Proofs.Operands
import Blockwork.Proofs.Routine
import Blockwork.Proofs.StackDiscipline

/-!
# The layout of a frame

The distances of variables from `$fp` come from three formulas: one for the locals, one for the
parameters, one for the result. Two routines go by them without knowing of each other: the caller
pushes the arguments, and the procedure saves two registers and clears the rest of its frame.

* `Procedure.frameNames`, `Procedure.Place`: what a frame holds, and where.
* `Procedure.place_parameter`: a parameter lies where its last mention in the list says.
* `Expression.argumentCode_at`, `Expression.depth_argumentCode`: the code of one argument among that
  of all, and how much of the stack arguments take.
* `Expression.PushesAt`, `Expression.pushesAt`: an argument is pushed to the place of its parameter.
* `FrameLayout`, `procedure_frame_layout`: no two variables share a word, none lies on a saved
  register, and both routines mean the same words.
-/

namespace Blockwork

open Code Machine

/-! ## Places -/

namespace Procedure

variable (q : Procedure) (topLevel : List String)

/-- The names of the variables that a procedure keeps in its frame. -/
def frameNames : List String :=
  q.name :: (q.parameters ++ q.locals topLevel)

/-- A variable lies at a distance from `$fp`. -/
def Place (x : String) (offset : Int) : Prop :=
  (Layout.frame q (q.locals topLevel)).locate x = .relative offset .fp

/-- A name stands at `i` among the parameters, and nowhere behind. -/
def LastParameter (i : Nat) (x : String) : Prop :=
  q.parameters[i]? = some x ∧ x ∉ q.parameters.drop (i + 1)

variable {q topLevel} {x y : String} {o : Int} {i : Nat}

theorem place_iff : q.Place topLevel x o ↔ Layout.offset? q (q.locals topLevel) x = some o := by
  simp only [Place, Layout.locate]
  cases Layout.offset? q (q.locals topLevel) x <;> simp

theorem exists_place_iff : (∃ o, q.Place topLevel x o) ↔ x ∈ q.frameNames topLevel := by
  simp only [place_iff, ← Option.isSome_iff_exists, ← Option.ne_none_iff_isSome, ne_eq,
    Layout.offset?_eq_none_iff, frameNames, List.mem_cons, List.mem_append]
  grind

theorem place_name (h : q.name ∉ q.parameters) : q.Place topLevel q.name (-4) := by
  have hl : q.name ∉ q.locals topLevel := fun hm => (of_mem_locals hm).1 rfl
  rw [place_iff]
  simp [Layout.offset?, hl, h, wordSize]

theorem lastParameter_iff : q.LastParameter i x ↔
    ∃ before after, q.parameters = before ++ x :: after ∧ before.length = i ∧ x ∉ after := by
  constructor
  · rintro ⟨hi, hx⟩
    obtain ⟨hi, rfl⟩ := List.getElem?_eq_some_iff.1 hi
    refine ⟨q.parameters.take i, _, ?_, by simp; omega, hx⟩
    rw [← List.drop_eq_getElem_cons, List.take_append_drop]
  · rintro ⟨before, after, hq, rfl, hx⟩
    exact ⟨by simp [hq], by rwa [hq, List.drop_append, List.drop_of_length_le (by omega),
      Nat.add_sub_cancel_left, List.nil_append, List.drop_one, List.tail_cons]⟩

/-- Each parameter stands somewhere for the last time. -/
theorem exists_lastParameter (h : x ∈ q.parameters) : ∃ i, q.LastParameter i x := by
  obtain ⟨after, before, hq, hx⟩ := List.eq_append_cons_of_mem (List.mem_reverse.2 h)
  refine ⟨before.length, lastParameter_iff.2 ⟨before.reverse, after.reverse, ?_, by simp, ?_⟩⟩
  · rw [← List.reverse_reverse q.parameters, hq]
    simp
  · simpa using hx

/-- The arguments lie above the two saved words, the last one nearest. -/
theorem place_parameter (h : q.LastParameter i x) :
    q.Place topLevel x (8 + 4 * (q.parameters.length - 1 - i : Nat)) := by
  obtain ⟨before, after, hq, rfl, hx⟩ := lastParameter_iff.1 h
  have hp : x ∈ q.parameters := by simp [hq]
  have hl : x ∉ q.locals topLevel := fun hm => (of_mem_locals hm).2.1 hp
  -- Counted from the end, the last mention of a name is the first.
  have hindex : q.parameters.reverse.idxOf x = after.length := by
    rw [hq, List.reverse_append, List.reverse_cons, List.append_assoc,
      List.idxOf_append_of_notMem (by simpa using hx)]
    simp
  have hlength : q.parameters.length = before.length + (after.length + 1) := by simp [hq]
  have ho : Layout.offset? q (q.locals topLevel) x = some (4 * (after.length + 2 : Nat) : Int) := by
    simp [Layout.offset?, hl, hp, hindex, wordSize]
  rw [place_iff, ho, hlength, Option.some.injEq]
  omega

-- Of two parameters with one name the later one counts, and a parameter may take the name of the
-- procedure.
example : let q : Procedure := ⟨"f", ["a", "f", "a"], [.assign "x" (.number 1)]⟩
    q.Place [] "a" 8 ∧ q.Place [] "f" 12 ∧ q.Place [] "x" (-8) := by
  simp only [place_iff]
  decide

end Procedure

/-! ## Arguments -/

namespace Expression

variable {scope : Scope} {es : List Expression} {e : Expression} {i : Nat}

theorem argumentCode_append (es es' : List Expression) :
    argumentCode scope (es ++ es') = argumentCode scope es ++ argumentCode scope es' := by
  induction es with
  | nil => exact (empty_append _).symm
  | cons e es ih => simp only [List.cons_append, argumentCode, ih, append_assoc]

/-- The code of one argument stands between that of those before it and that of those behind it. -/
theorem argumentCode_at (scope : Scope) (h : es[i]? = some e) : argumentCode scope es =
    argumentCode scope (es.take i) ++ (e.code scope ++ push ++
      argumentCode scope (es.drop (i + 1))) := by
  obtain ⟨hi, rfl⟩ := List.getElem?_eq_some_iff.1 h
  have hes : es = es.take i ++ es[i] :: es.drop (i + 1) := by
    rw [← List.drop_eq_getElem_cons, List.take_append_drop]
  exact (congrArg _ hes).trans (argumentCode_append _ _)

/-- Each argument takes a word of the stack. -/
theorem depth_argumentCode (h : (argumentCode scope es).obstacle = none) :
    stackDepth (argumentCode scope es).lines = wordSize * es.length := by
  have hmoves := (argumentCode_shifts scope (Int.le_refl 0) es h).last_eq
  omega

/-- The code of arguments pushes the word of the `i`-th one to a distance from `$fp`, as `$fp` is in
a routine that is entered with `$sp` as it is behind the arguments. -/
def PushesAt (scope : Scope) (es : List Expression) (i : Nat) (offset : Int) : Prop :=
  ∃ e, es[i]? = some e ∧
    let before := argumentCode scope (es.take i) ++ e.code scope
    let after := argumentCode scope (es.drop (i + 1))
    argumentCode scope es = before ++ push ++ after ∧
      ∀ (lines : List Line) (m : Machine) (s : Int), CodeAt lines m.line push →
        m.exitCode = none → 4 ∣ s → m.get .sp = .stack (s + stackDepth (push ++ after).lines) →
        ∃ m', m.Runs lines m' ∧ m'.line = m.line + push.lines.length ∧
          m'.get .sp = .stack (s + stackDepth after.lines) ∧
          m'.stack = Function.update m.stack (s - 8 + offset) (m.get .v0)

theorem pushesAt (h : (argumentCode scope es).obstacle = none) (hi : i < es.length) :
    PushesAt scope es i (8 + 4 * (es.length - 1 - i : Nat)) := by
  have he := List.getElem?_eq_getElem hi
  have hcode := argumentCode_at scope he
  rw [hcode] at h
  have hafter := (obstacle_append_eq_none.1 (obstacle_append_eq_none.1 h).2).2
  refine ⟨es[i], he, by rw [hcode]; simp only [append_assoc], ?_⟩
  intro lines m s hc hr h4 hsp
  have hpush : stackDepth push.lines = 4 := rfl
  rw [lines_append hc.obstacle, stackDepth_append, hpush, depth_argumentCode hafter] at hsp
  have hlength : ((es.drop (i + 1)).length : Int) = (es.length - 1 - i : Nat) := by
    rw [List.length_drop]
    omega
  rw [hlength, wordSize] at hsp
  refine ⟨_, runs_push hc hr hsp (by omega), rfl, ?_, ?_⟩
  · rw [depth_argumentCode hafter, hlength, wordSize]
    simp
    omega
  · rw [goto_stack, poke_stack, set_stack]
    congr 1
    omega

end Expression

/-! ## Frames -/

/-- What is true of the places of a procedure's variables, and of what its routine and its callers
do there. If the routine is entered with `$sp` at `s`, its `$fp` is `s - 8`. -/
structure FrameLayout (q : Procedure) (topLevel : List String) : Prop where
  placed : ∀ x, x ∈ q.frameNames topLevel ↔ ∃ o, q.Place topLevel x o
  distinct : ∀ x y o, q.Place topLevel x o → q.Place topLevel y o → x = y
  aligned : ∀ x o, q.Place topLevel x o → 4 ∣ o
  /-- The caller's `$fp` and the return address keep their words. -/
  saved : ∀ x o, q.Place topLevel x o → o ≠ 0 ∧ o ≠ 4
  /-- The other words that the routine reserves are its own. -/
  below : ∀ x o, q.Place topLevel x o → o < 0 →
    -4 * ((q.locals topLevel).length + 1) ≤ o ∧ o ≤ -4
  entry : ∀ (env : Environment) (first : Nat) (lines : List Line) (m : Machine) (s : Int),
    CodeAt lines m.line (q.code env topLevel first) → m.exitCode = none →
    m.get .sp = .stack s → 4 ∣ s →
    ∃ m', m.Runs lines m' ∧ m'.line = m.line + 7 + (q.locals topLevel).length ∧
      m.Entered s (q.locals topLevel).length m' ∧
      ∀ x o, q.Place topLevel x o → o < 0 → m'.stack (s - 8 + o) = .word 0
  /-- A parameter lies where a call leaves the argument for the last one of its name. -/
  parameter : ∀ x ∈ q.parameters, ∃ i o, q.LastParameter i x ∧ q.Place topLevel x o ∧
    o = 8 + 4 * (q.parameters.length - 1 - i : Nat) ∧ ∀ (scope : Scope) arguments,
      scope.environment.getProcedure q.name = .ok q →
      ((Expression.call q.name arguments).code scope).obstacle = none →
      Expression.PushesAt scope arguments i o
  /-- The result has a word of its own, unless a parameter has the name of the procedure. -/
  result : q.name ∉ q.parameters → q.Place topLevel q.name (-4)
  /-- The distances are words of a machine. -/
  fits : q.parameters.length < 2 ^ 28 → (q.locals topLevel).length < 2 ^ 28 →
    ∀ x o, q.Place topLevel x o → -2 ^ 31 ≤ o ∧ o < 2 ^ 31

/-- The code of a call without an obstacle has as many arguments as the procedure has parameters. -/
theorem length_of_call {scope : Scope} {q : Procedure} {arguments : List Expression}
    (hq : scope.environment.getProcedure q.name = .ok q)
    (h : ((Expression.call q.name arguments).code scope).obstacle = none) :
    (Expression.argumentCode scope arguments).obstacle = none ∧
      arguments.length = q.parameters.length := by
  obtain ⟨hc, -⟩ := obstacle_append_eq_none.1 h
  obtain ⟨hc, -⟩ := obstacle_append_eq_none.1 hc
  obtain ⟨hcheck, harguments⟩ := obstacle_append_eq_none.1 hc
  rw [Scope.obstacle_checkCall] at hcheck
  obtain ⟨q', hq', hlength⟩ := Environment.allows_iff.2 hcheck
  cases hq.symm.trans hq'
  exact ⟨harguments, hlength.symm⟩

/-- The frame of a procedure is laid out without conflicts, whatever its names are. -/
theorem procedure_frame_layout (q : Procedure) (topLevel : List String) :
    FrameLayout q topLevel := by
  have hrange {x o} (h : q.Place topLevel x o) := Layout.offset?_range (Procedure.place_iff.1 h)
  constructor
  case placed => exact fun x => Procedure.exists_place_iff.symm
  case distinct =>
    exact fun x y o hx hy =>
      Layout.offset?_injective (Procedure.place_iff.1 hx) (Procedure.place_iff.1 hy)
  case aligned => exact fun x o h => (hrange h).1
  case saved =>
    intro x o h
    have := hrange h
    omega
  case below =>
    intro x o h hneg
    have := hrange h
    omega
  case entry =>
    intro env first lines m s hc hr hs h4
    obtain ⟨m', hrun, hline, he⟩ := runs_enter hc hr hs h4
    refine ⟨m', hrun, hline, he, fun x o h hneg => ?_⟩
    -- The words that are cleared are all those between `$sp` and `$fp`.
    obtain ⟨⟨i, hi⟩, hx⟩ := hrange h
    have hzero := he.cleared (-i - 1).toNat (by omega)
    rwa [show s - 8 - 4 * ((-i - 1).toNat + 1 : Nat) = s - 8 + o by omega] at hzero
  case parameter =>
    intro x hx
    obtain ⟨i, hi⟩ := Procedure.exists_lastParameter hx
    refine ⟨i, _, hi, Procedure.place_parameter hi, rfl, fun scope arguments hq ho => ?_⟩
    obtain ⟨harguments, hlength⟩ := length_of_call hq ho
    have hlt : i < arguments.length := hlength ▸ (List.getElem?_eq_some_iff.1 hi.1).1
    rw [← hlength]
    exact Expression.pushesAt harguments hlt
  case result => exact Procedure.place_name
  case fits =>
    intro hp hl x o h
    have := hrange h
    omega

end Blockwork
