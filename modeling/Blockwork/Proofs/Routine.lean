import Blockwork.Proofs.Reaching

/-!
# Calls of routines

A call pushes its arguments and goes to the label of a routine. The routine saves `$ra` and `$fp`
above its frame, clears its result and its locals, runs the body, loads the result and gives back
its frame.

* `effects_save`, `effects_clear`: the two halves of the entry; `Matches.enter`: the machine behind
  them matches the environment at the start of the call.
* `runs_exit`: the end of a routine; `Entered.kept`: what its body leaves as it was.
* `Matches.leave`: the machine behind that matches the environment after the call.
* `reaches_call`: a call, given that machines follow the runs of bodies.
-/

namespace Blockwork

open Code Environment Traced

namespace Machine

variable {lines : List Line} {m m' : Machine}

theorem effects_append (a b : List Instruction) :
    m.effects lines (a ++ b) = (m.effects lines a).bind fun m' => m'.effects lines b := by
  induction a generalizing m with
  | nil => rfl
  | cons i a ih =>
    simp only [List.cons_append, effects, Option.bind_assoc]
    congr 1
    funext m'
    exact ih

theorem effects_keeps {is : List Instruction} (h : m.effects lines is = some m') :
    m'.line = m.line ∧ m'.exitCode = m.exitCode := by
  induction is generalizing m with
  | nil => cases h; exact ⟨rfl, rfl⟩
  | cons i is ih =>
    obtain ⟨m₁, hi, h⟩ := Option.bind_eq_some_iff.1 h
    obtain ⟨hl, hx⟩ := effect_keeps hi
    obtain ⟨hl', hx'⟩ := ih h
    exact ⟨hl'.trans hl, hx'.trans hx⟩

theorem address?_eq {base : Register} {a offset b : Int} (h : m.get base = .stack a)
    (hb : a + offset = b) (h4 : 4 ∣ b) : m.address? offset base = some b := by
  rw [address?, h, ← hb]
  exact if_pos (hb ▸ h4)

theorem read_stack {base : Register} {a offset b : Int} (h : m.get base = .stack a)
    (hb : a + offset = b) (h4 : 4 ∣ b) : m.read (.relative offset base) = some (m.stack b) := by
  rw [read, address?_eq h hb h4, Option.map_some]

/-- The instructions at the entry of a routine that save two registers and make room for `n`
locals. -/
def saveInstructions (n : Nat) : List Instruction :=
  [.reserve (2 * wordSize), .store .ra (.relative wordSize .sp), .store .fp (.relative 0 .sp),
    .move .fp .sp, .reserve (wordSize * (n + 1))]

/-- The machine behind these instructions. -/
def saved (m : Machine) (s : Int) (n : Nat) : Machine :=
  ((((m.set .sp (.stack (s - 8))).poke (s - 4) (m.get .ra)).poke (s - 8) (m.get .fp)).set
    .fp (.stack (s - 8))).set .sp (.stack (s - 8 - 4 * (n + 1)))

theorem effects_save {s : Int} (hs : m.get .sp = .stack s) (h4 : 4 ∣ s) (n : Nat) :
    m.effects lines (saveInstructions n) = some (m.saved s n) := by
  have hsp : (m.set .sp (.stack (s - 8))).get .sp = .stack (s - 8) := by simp
  have hreturn : (m.set .sp (.stack (s - 8))).address? 4 .sp = some (s - 4) :=
    address?_eq hsp (by omega) (by omega)
  have hframe : ((m.set .sp (.stack (s - 8))).poke (s - 4) (m.get .ra)).address? 0 .sp =
      some (s - 8) := address?_eq hsp (by omega) (by omega)
  simp [saveInstructions, effects, effect, moveStack, hs, write, hreturn, hframe, wordSize,
    ← Int.sub_eq_add_neg, saved]

/-- The instructions that clear words below `$fp`. -/
theorem effects_clear {f : Int} (hf : m.get .fp = .stack f) (h4 : 4 ∣ f) (n : Nat) :
    ∃ m', m.effects lines ((List.range n).map fun i => .store .zero (slot i)) = some m' ∧
      (∀ r, m'.get r = m.get r) ∧ m'.data = m.data ∧ m'.output = m.output ∧
      (∀ i < n, m'.stack (f - 4 * (i + 1 : Nat)) = .word 0) ∧
      ∀ a, f ≤ a → m'.stack a = m.stack a := by
  induction n with
  | zero => exact ⟨m, rfl, fun _ => rfl, rfl, rfl, by simp, fun _ _ => rfl⟩
  | succ n ih =>
    obtain ⟨m₁, he, hget, hdata, hout, hzero, hstack⟩ := ih
    have ha : m₁.address? (-(wordSize * (n + 1) : Nat)) .fp = some (f - 4 * (n + 1 : Nat)) :=
      address?_eq ((hget .fp).trans hf) (by simp only [wordSize]; omega) (by omega)
    refine ⟨m₁.poke (f - 4 * (n + 1 : Nat)) (.word 0), ?_, hget, hdata, hout, fun i hi => ?_,
      fun a hle => ?_⟩
    · rw [List.range_succ, List.map_append, effects_append, he, Option.bind_some]
      simp only [List.map_cons, List.map_nil, effects, effect, slot, write, ha, Option.map_some,
        Option.bind_some, get_zero]
    · rw [poke_stack]
      by_cases hin : i = n
      · rw [hin, Function.update_self]
      · rw [Function.update_of_ne (by omega), hzero i (by omega)]
    · rw [poke_stack, Function.update_of_ne (by omega), hstack a hle]

/-- The machine at the start of the body of a routine with `n` locals: the arguments end at `s`. -/
structure Entered (m : Machine) (s : Int) (n : Nat) (m' : Machine) : Prop where
  running : m'.exitCode = none
  output : m'.output = m.output
  data : m'.data = m.data
  fp : m'.get .fp = .stack (s - 8)
  sp : m'.get .sp = .stack (s - 8 - 4 * (n + 1))
  savedReturn : m'.stack (s - 4) = m.get .ra
  savedFrame : m'.stack (s - 8) = m.get .fp
  cleared : ∀ i ≤ n, m'.stack (s - 8 - 4 * (i + 1 : Nat)) = .word 0
  stack : ∀ a, s ≤ a → m'.stack a = m.stack a

theorem Entered.result {s : Int} {n : Nat} (h : m.Entered s n m') :
    m'.stack (s - 12) = .word 0 := by
  have hzero := h.cleared 0 (Nat.zero_le n)
  rwa [show s - 8 - 4 * (0 + 1 : Nat) = s - 12 by omega] at hzero

/-- The instructions at the end of a routine, but for the last one, which goes back. -/
def exitInstructions (result : Location) : List Instruction :=
  [.load .v0 result, .move .sp .fp, .load .fp (.relative 0 .sp),
    .load .ra (.relative wordSize .sp), .release (2 * wordSize)]

/-- The instructions that clear the result and `n` locals. -/
def clearInstructions (n : Nat) : List Instruction :=
  (List.range (n + 1)).map fun i => .store .zero (slot i)

end Machine

open Machine

/-- The parts of a routine. -/
theorem CodeAt.parts {lines : List Line} {k : Nat} {q : Procedure} {environment : Environment}
    {topLevel : List String} {first : Nat}
    (hc : CodeAt lines k (q.code environment topLevel first)) :
    let n := (q.locals topLevel).length
    let layout := Layout.frame q (q.locals topLevel)
    let body := Statement.listCode ⟨environment, layout⟩ first q.body
    CodeAt lines k (ofLines [.define (.procedure q.name)]) ∧
      CodeAt lines (k + 1) (ofInstructions (saveInstructions n)) ∧
      CodeAt lines (k + 6) (ofInstructions (clearInstructions n)) ∧
      CodeAt lines (k + 7 + n) body ∧
      CodeAt lines (k + 7 + n + body.lines.length)
        (ofInstructions (exitInstructions (layout.locate q.name) ++ [.jumpRegister .ra])) := by
  intro n layout body
  have hbody := hc.left.right
  have hexit := hc.right
  rw [hc.left.length_append, ← Nat.add_assoc] at hexit
  rw [hc.left.left.length_append] at hbody hexit
  have hlength : 6 + (ofInstructions ((List.range (n + 1)).map fun i =>
      .store .zero (slot i))).lines.length = 7 + n := by
    simp
    omega
  refine ⟨hc.left.left.left.left, hc.left.left.left.right, hc.left.left.right, ?_, ?_⟩
  · rw [Nat.add_assoc, ← hlength]
    exact hbody
  · rw [Nat.add_assoc k, ← hlength]
    exact hexit

namespace Machine

/-- From the label of a routine to its body. -/
theorem runs_enter {lines : List Line} {m : Machine} {q : Procedure} {environment : Environment}
    {topLevel : List String} {first : Nat} {s : Int}
    (hc : CodeAt lines m.line (q.code environment topLevel first))
    (hr : m.exitCode = none) (hs : m.get .sp = .stack s) (h4 : 4 ∣ s) :
    ∃ m', m.Runs lines m' ∧ m'.line = m.line + 7 + (q.locals topLevel).length ∧
      Entered m s (q.locals topLevel).length m' := by
  obtain ⟨hdefine, hsave, hclear, -, -⟩ := hc.parts
  generalize (q.locals topLevel).length = n at hsave hclear ⊢
  have hrun₁ := runs_define hdefine hr
  have hrun₂ := runs_effects (m := m.goto (m.line + 1)) hsave hr
    (effects_save (m := m.goto (m.line + 1)) hs h4 n)
  obtain ⟨m₃, he, hget, hdata, hout, hzero, hstack⟩ := effects_clear
    (m := ((m.goto (m.line + 1)).saved s n).goto (m.line + 6)) (f := s - 8) (by simp [saved])
    (by omega) (n + 1)
  have hrun₃ := runs_effects hclear (by simpa [saved] using hr) he
  refine ⟨_, (hrun₁.trans hrun₂).trans hrun₃, ?_, ⟨?_, ?_, ?_, ?_, ?_, ?_, ?_, ?_, ?_⟩⟩
  · simp only [goto_line, List.length_map, List.length_range]
    omega
  · rw [goto_exitCode, (effects_keeps he).2]
    simpa [saved] using hr
  · rw [goto_output, hout]
    simp [saved]
  · rw [goto_data, hdata]
    simp [saved]
  · rw [get_goto, hget]
    simp [saved]
  · rw [get_goto, hget]
    simp [saved]
  · rw [goto_stack, hstack _ (by omega)]
    simp [saved]
  · rw [goto_stack, hstack _ (by omega)]
    simp [saved]
  · exact fun i hi => hzero i (by omega)
  · intro a ha
    have h₁ : a ≠ s - 4 := by omega
    have h₂ : a ≠ s - 8 := by omega
    rw [goto_stack, hstack _ (by omega)]
    simp [saved, Function.update_of_ne, h₁, h₂]

/-- The machine behind a routine: back at line `k`, with the result in `$v0`. -/
def exited (m : Machine) (c : Content) (f : Int) (k : Nat) : Machine :=
  (((((m.set .v0 c).set .sp (.stack f)).set .fp (m.stack f)).set .ra (.code k)).set
    .sp (.stack (f + 8))).goto k

/-- The end of a routine. -/
theorem runs_exit {lines : List Line} {m : Machine} {result : Location} {c : Content} {f : Int}
    {k : Nat} (hc : CodeAt lines m.line
      (ofInstructions (exitInstructions result ++ [.jumpRegister .ra])))
    (hr : m.exitCode = none) (hload : m.read result = some c) (hf : m.get .fp = .stack f)
    (h4 : 4 ∣ f) (hra : m.stack (f + 4) = .code k) : m.Runs lines (m.exited c f k) := by
  have hframe : ((m.set .v0 c).set .sp (.stack f)).read (.relative 0 .sp) = some (m.stack f) :=
    read_stack (get_set_self _ _ (by decide)) (Int.add_zero f) h4
  have hreturn : (((m.set .v0 c).set .sp (.stack f)).set .fp (m.stack f)).read
      (.relative wordSize .sp) = some (.code k) :=
    (read_stack (a := f) (b := f + 4) (by simp) rfl (by omega)).trans (congrArg some hra)
  have he : m.effects lines (exitInstructions result) =
      some (((((m.set .v0 c).set .sp (.stack f)).set .fp (m.stack f)).set .ra (.code k)).set
        .sp (.stack (f + 8))) := by
    simp only [exitInstructions, effects, effect, hload, Option.map_some, Option.bind_some, ne_eq,
      reduceCtorEq, not_false_eq_true, get_set_of_ne, hf, hframe, hreturn]
    simp [moveStack, wordSize]
  rw [ofInstructions_append] at hc
  have hrun := runs_effects hc.left hr he
  refine hrun.trans (.single ?_)
  have hjump := hc.right.instruction
  rw [lines_ofInstructions, List.length_map] at hjump
  simp [step, hr, hjump, exited]
  rfl

end Machine

/-! ## Frames -/

theorem Environment.Within.layout_enter {p : Program} {env inner : Environment} (h : env.Within p)
    {name : String} {q : Procedure} {values : List Value} (hq : env.getProcedure name = .ok q)
    (hi : env.enter q values = .ok inner) :
    inner.layout p = .frame q (q.locals p.topLevelNames) := by
  obtain ⟨-, rfl⟩ := enter_eq_ok hi
  refine layout_of_frames rfl ?_
  show p.environment.getProcedure q.name = .ok q
  rw [(getProcedure_eq_ok hq).2, ← getProcedure_congr h.procedures, hq]

namespace Matches

variable {p : Program} {env inner : Environment} {m m' : Machine}

/-- At the start of the body of a routine, if the arguments are on the stack, the last one
nearest. -/
theorem enter (h : Matches p env m) {name : String} {q : Procedure} {values : List Value}
    (hq : env.getProcedure name = .ok q) (hi : env.enter q values = .ok inner) {s : Int}
    (h4 : 4 ∣ s) (hargs : ∀ (j : Nat) v, values.reverse[j]? = some v →
      m.stack (s + 4 * j) = v.content)
    (he : m.Entered s (q.locals p.topLevelNames).length m') : Matches p inner m' := by
  have hl := h.within.layout_enter hq hi
  have hwithin := h.within.enter hq hi
  obtain ⟨hlen, rfl⟩ := enter_eq_ok hi
  refine ⟨hwithin, he.running, ?_, ?_, ⟨_, he.sp, by omega, ?_⟩, ?_, ?_⟩
  · rw [he.data]
    exact h.globals
  · rw [he.data]
    exact h.storage
  · intro q' locals f hl' hf
    rw [hl] at hl'
    cases hl'
    rw [he.fp] at hf
    cases hf
    omega
  · exact fun _ _ _ => ⟨_, he.fp, by omega⟩
  · intro q' locals f x v hl' hf hx
    rw [hl] at hl'
    cases hl'
    rw [he.fp] at hf
    cases hf
    obtain ⟨ho, rfl⟩ | ⟨j, hj, ho⟩ :=
      newFrame_slot hlen (fun x hx => (Procedure.of_mem_locals hx).imp_right And.left) hx
    · exact ⟨_, ho, by rw [show s - 8 + -4 = s - 12 by omega, he.result]; rfl⟩
    · refine ⟨_, ho, ?_⟩
      rw [show s - 8 + 4 * (j + 2) = s + 4 * j by omega, he.stack _ (by omega)]
      exact hargs j v hj

/-- After a call, if the pointers are back and the stack from the caller's variables on is what it
was. The callee may have changed the values of global variables. -/
theorem leave (h : Matches p env m) {env' : Environment} (hev : env.Evaluated env')
    {m₁ : Machine} (hinner : Matches p inner m₁) (hg : env'.globals = inner.globals)
    (hdata : m'.data = m₁.data) (hexit : m'.exitCode = none) (hsp : m'.get .sp = m.get .sp)
    (hfp : m'.get .fp = m.get .fp) {s₀ : Int} (h₀ : Above (env.layout p) m s₀)
    (hstack : ∀ a, s₀ ≤ a → m'.stack a = m.stack a) : Matches p env' m' := by
  have hl := hev.executed.layout (p := p)
  obtain ⟨s, hs, h4, habove⟩ := h.sp
  refine ⟨h.within.evaluated hev, hexit, ?_, ?_, ⟨s, hsp.trans hs, h4, ?_⟩, ?_, ?_⟩
  · rw [hg, hdata]
    exact hinner.globals
  · rw [hdata]
    exact hinner.storage
  · rw [hl]
    exact habove.congr hfp
  · rw [hl, hfp]
    exact h.fp
  · intro q locals f x v hl' hf hx
    rw [hl] at hl'
    rw [hfp] at hf
    have hx' : env.current.get? x = some v := by
      rw [← hx, current, current, hev.frames]
      cases hfr : env.frames with
      | nil => simp [layout, hfr] at hl'
      | cons => rfl
    obtain ⟨o, ho, hw⟩ := h.slots q locals f x v hl' hf hx'
    exact ⟨o, ho, by rw [hstack _ ((hl' ▸ h₀).le hf ho), hw]⟩

end Matches

/-! ## Calls -/

/-- Machines follow the runs of lists of statements that go down some number of levels. -/
def ListsReach (p : Program) (lines : List Line) (fuel : Nat) : Prop :=
  ∀ (ss : List Statement) (s : State) (m : Machine) (first : Nat),
    let code := Statement.listCode ⟨p.environment, s.environment.layout p⟩ first ss
    Matches p s.environment m → CodeAt lines m.line code →
    (∀ x ∈ Statement.listAssigned ss, s.environment.Assignable p x) →
    Reaches p lines m (Statement.traceAll fuel ss s) fun _ =>
      Performed (s.environment.layout p) m code.lines.length

/-- The result of a call is the value of the procedure's name. -/
theorem result_of_executed {inner env : Environment} {outer : Environment} {q : Procedure}
    {values : List Value} (hi : outer.enter q values = .ok inner) (he : inner.Executed env) :
    env.get? q.name = some env.result := by
  obtain ⟨hlen, rfl⟩ := enter_eq_ok hi
  obtain ⟨frame, frames, hf⟩ := List.exists_cons_of_ne_nil (he.frames_ne_nil (by simp))
  have howner : frame.procedure = q.name := by
    have := he.owners
    rw [hf, List.map_cons, List.map_cons] at this
    exact (List.cons.inj this).1
  have hbound : env.current.binds q.name :=
    he.current q.name ((binds_newFrame hlen q.name).2 (.inl rfl))
  have hsome : (env.get? q.name).isSome := by
    rw [current, hf] at hbound
    simp only [Bindings.binds] at hbound
    obtain ⟨v, hv⟩ := Option.isSome_iff_exists.1 hbound
    simp [Environment.get?, hf, hv]
  obtain ⟨v, hv⟩ := Option.isSome_iff_exists.1 hsome
  simp [result, currentProcedure?, hf, howner, hv]

/-- The jump to the label of a routine. -/
theorem Machine.runs_call {p : Program} {lines : List Line} (hlink : Linked p lines) {m : Machine}
    (hr : m.exitCode = none) {q : Procedure} (hq : q ∈ p.environment.procedures)
    (hc : CodeAt lines m.line (ofInstructions [.jumpAndLink (.procedure q.name)])) :
    ∃ n first, CodeAt lines n (q.code p.environment p.topLevelNames first) ∧
      m.Runs lines ((m.set .ra (.code (m.line + 1))).goto n) := by
  obtain ⟨n, first, hcode⟩ := hlink.routine q hq
  have hlabel := labelLine?_of_nodup hlink.labels hcode.parts.1.define
  refine ⟨n, first, hcode, .single ?_⟩
  simp only [step, hr, hc.instruction, gotoLabel, hlabel, Option.map_some]

/-- The body of a routine keeps the saved words and what is above the arguments. -/
theorem Machine.Entered.kept {m m₁ m₂ : Machine} {s : Int} {n : Nat} {q : Procedure}
    {locals : List String} (h : m.Entered s n m₁)
    (hk : Keeps (Owned (.frame q locals) m₁) m₁ m₂) :
    m₂.stack (s - 4) = m.get .ra ∧ m₂.stack (s - 8) = m.get .fp ∧
      ∀ b, s + 4 * q.parameters.length ≤ b → m₂.stack b = m.stack b := by
  -- None of these words belongs to a variable of the body.
  have hbody : ∀ b, s - 8 ≤ b → (b < s ∨ s + 4 * q.parameters.length ≤ b) →
      m₂.stack b = m₁.stack b := by
    intro b hb hcase
    refine hk.stack _ b h.sp (by omega) fun howned => ?_
    have := howned.range h.fp
    omega
  refine ⟨?_, ?_, fun b hb => ?_⟩
  · rw [hbody _ (by omega) (by omega), h.savedReturn]
  · rw [hbody _ (by omega) (by omega), h.savedFrame]
  · rw [hbody b (by omega) (.inr hb), h.stack b (by omega)]

/-- A machine follows a call if machines follow the run of the body. The arguments are on the stack,
and the caller's variables are above them. -/
theorem reaches_call {p : Program} {lines : List Line} (hlink : Linked p lines) {fuel : Nat}
    (ih : ListsReach p lines fuel) {s : State} {m : Machine} (h : Matches p s.environment m)
    {q : Procedure} (hq : s.environment.getProcedure q.name = .ok q) {values : List Value} {a : Int}
    (hsp : m.get .sp = .stack a) (habove : Above (s.environment.layout p) m (a + 4 * values.length))
    (hargs : ∀ (j : Nat) v, values.reverse[j]? = some v → m.stack (a + 4 * j) = v.content)
    (hc : CodeAt lines m.line (ofInstructions [.jumpAndLink (.procedure q.name)])) :
    Reaches p lines m (Traced.call q values (Statement.traceAll fuel q.body) s) fun v m' =>
      m'.line = m.line + 1 ∧ m'.get .v0 = v.content ∧
        Keeps (fun b => b < a + 4 * values.length) m m' := by
  obtain ⟨e, hi, he⟩ | ⟨inner, r, hi, hr, he⟩ :=
    call_result q values (Statement.traceAll fuel q.body) s <;> rw [he]
  · intro _
    refine ⟨fun v hv => (by cases hv), fun hd => ?_⟩
    cases hd
    unfold Environment.enter at hi
    split at hi <;> cases hi
  -- To the body.
  have h4 : 4 ∣ a := (h.aligned hsp).1
  have hmem : q ∈ p.environment.procedures := by
    rw [← h.within.procedures]
    exact (getProcedure_eq_ok hq).1
  obtain ⟨n, first, hcode, hjump⟩ := runs_call hlink h.running hmem hc
  obtain ⟨-, -, -, hbody, hexit⟩ := hcode.parts
  obtain ⟨m₂, henter, hline, hentered⟩ := runs_enter (m := (m.set .ra (.code (m.line + 1))).goto n)
    hcode h.running (by simpa using hsp) h4
  have hinner := h.within.layout_enter hq hi
  have hcalled : Matches p s.environment ((m.set .ra (.code (m.line + 1))).goto n) :=
    h.registers rfl rfl (by simp) (by simp) rfl
  have hm₂ : Matches p inner m₂ := hcalled.enter hq hi h4 hargs hentered
  rw [goto_line] at hline
  have hrun := ih q.body { s with environment := inner } m₂ first hm₂ (by
    rw [hinner, hline]
    exact hbody) (fun x hx => by rw [Assignable, hinner]; exact hx)
  have hexec := (evaluated_executed_rules.trace fuel).2.2.2 (fun _ => True) q.body
    (fun _ _ => trivial) { s with environment := inner }
  rw [hr] at hrun hexec
  rw [hinner] at hrun
  refine .steps (hjump.trans henter) hentered.output fun hproper => ?_
  obtain ⟨hd, hg⟩ := hrun hproper
  refine ⟨fun v hv => ?_, fun hfail => hg ?_⟩
  · have hdone : r.outcome = .done () ∧ r.state.environment.result = v := by
      cases ho : r.outcome <;> rw [ho] at hv <;> cases hv
      exact ⟨rfl, rfl⟩
    obtain ⟨hdone, rfl⟩ := hdone
    obtain ⟨m₃, hrun₃, hout₃, hm₃, hline₃, hkeep⟩ := hd () hdone
    obtain ⟨hra, hfp, hstack⟩ := hentered.kept hkeep
    rw [(enter_eq_ok hi).1] at hstack
    have hload := hm₃.load (result_of_executed hi hexec)
    rw [hexec.layout, hinner] at hload
    have hback := runs_exit (f := a - 8) (k := m.line + 1)
      (by rw [hline₃, hline]; exact hexit) hm₃.running hload (hkeep.fp.trans hentered.fp) (by omega)
      (by rw [show a - 8 + 4 = a - 4 by omega, hra]; simp)
    replace hfp : m₃.stack (a - 8) = m.get .fp := hfp.trans (by simp)
    refine ⟨_, hrun₃.trans hback, hout₃, ?_, rfl, by simp [exited], ?_, ?_, ?_⟩
    · exact h.leave (hexec.leave hi) hm₃ rfl rfl hm₃.running (by simp [exited, hsp])
        (by simp [exited, hfp]) habove hstack
    · simp [exited, hsp]
    · simp [exited, hfp]
    · exact fun _ b _ _ hb => hstack b (by omega)
  · cases ho : r.outcome <;> rw [ho] at hfail <;> cases hfail
    rfl

end Blockwork
