import Blockwork.Proofs.MoreFuel

/-!
# Runs with a full sink

A sink with a limit cuts the output of a run off. Up to the limit, the run is the same as with a
sink that has none. The first write that goes beyond the limit is done in part, and then the run
fails, whatever calls and loops it is in, and writes nothing more.

* `State.Free`, `State.limited`: a sink without a limit, and the same one with a limit.
* `Sink.write_limited`: one write to a sink with a limit.
* `Execution.Cut`: what an execution comes to with a limit, by what it comes to without one.
* `Execution.Truncates`: executions that are cut off like this, one lemma for each step;
  `Execution.truncates_steps` says that all of them are.
* `full_sink_truncates`: the same of the run of a program.
-/

namespace Blockwork

/-! ## Limits -/

/-- The part of an output up to a limit that lies behind its first part. -/
theorem extract_append_of_le {a b : ByteArray} {n : Nat} (h : a.size ≤ n) :
    (a ++ b).extract 0 n = a ++ b.extract 0 (n - a.size) := by
  rw [ByteArray.extract_append, Nat.zero_sub, ← Nat.max_eq_left h,
    ByteArray.extract_zero_max_size]

/-- The part of an output up to a limit that lies within its first part. -/
theorem extract_append_of_ge {a b : ByteArray} {n : Nat} (h : n ≤ a.size) :
    (a ++ b).extract 0 n = a.extract 0 n := by
  rw [ByteArray.extract_append, Nat.zero_sub, Nat.sub_eq_zero_of_le h, ByteArray.extract_same,
    ByteArray.append_empty]

/-- One write to a sink with a limit, which what was written before is within. -/
theorem Sink.write_limited {s : Sink} {limit : Nat} (h : s.written.size ≤ limit) (text : String) :
    let written := s.written ++ text.toUTF8
    ({ s with limit := some limit } : Sink).write text =
      if written.size ≤ limit then (.ok (), { s with limit := some limit, written })
      else (.error s.overflow,
        { s with limit := some limit, written := written.extract 0 limit }) := by
  intro written
  have hsize : written.size = s.written.size + text.toUTF8.size := ByteArray.size_append
  have hroom : ({ s with limit := some limit } : Sink).room text.toUTF8.size =
    min text.toUTF8.size (limit - s.written.size) := rfl
  simp only [write]
  by_cases hfits : written.size ≤ limit
  · rw [if_pos hfits, if_pos (by omega)]
  · rw [if_neg hfits, if_neg (by omega), hroom, Nat.min_eq_right (by omega),
      extract_append_of_le h]

/-- A value is shown on a console with a limit, which what was written before is within. -/
theorem Console.display_limited {c : Console} {limit : Nat} (h : c.output.written.size ≤ limit)
    (v : Value) :
    let shown := c.output.written ++ (v.text ++ "\n").toUTF8
    ({ c with output.limit := some limit } : Console).display v =
      if shown.size ≤ limit then
        (c.output.flush.mapError .io,
          { c with output.limit := some limit, output.written := shown })
      else (.error (.io c.output.overflow),
        { c with output.limit := some limit, output.written := shown.extract 0 limit }) := by
  intro shown
  have hw := Sink.write_limited h (v.text ++ "\n")
  unfold display
  dsimp only at hw ⊢
  rw [hw]
  by_cases hfits : shown.size ≤ limit
  · rw [if_pos hfits, if_pos hfits]
    rfl
  · rw [if_neg hfits, if_neg hfits]

theorem Console.display_of_unlimited {c : Console} (h : c.output.limit = none) (v : Value) :
    c.display v = (c.output.flush.mapError .io,
      { c with output.written := c.output.written ++ (v.text ++ "\n").toUTF8 }) := by
  unfold display
  rw [Sink.write_of_unlimited h]
  rfl

namespace State

/-- The sink has no limit. A write for which there is no room would fail in a certain way. -/
structure Free (overflow : IoError) (s : State) : Prop where
  limit : s.console.output.limit = none
  overflow : s.console.output.overflow = overflow

/-- The state with a sink that takes a number of bytes in all. -/
def limited (limit : Nat) (s : State) : State := { s with console.output.limit := some limit }

/-- What has been written. -/
def written (s : State) : ByteArray := s.console.output.written

end State

namespace Execution

open State

variable {α β : Type} {overflow : IoError} {limit : Nat}

/-- The second result is that of an execution with a limit: it is the first one if the output is
within the limit, and else the execution has failed, and the output is as much of that of the first
one as there was room for. -/
inductive Cut (overflow : IoError) (limit : Nat) : Outcome α × State → Outcome α × State → Prop
  | fits {o : Outcome α} {s : State} (hs : s.Free overflow) (h : s.written.size ≤ limit) :
    Cut overflow limit (o, s) (o, s.limited limit)
  | full {o : Outcome α} {s t : State} (h : limit < s.written.size)
    (ht : t.written = s.written.extract 0 limit) :
    Cut overflow limit (o, s) (.failed (.io overflow), t)

/-- More output behind the limit makes no difference. -/
theorem Cut.extends {r : Outcome α × State} {s t : State} (h : limit < s.written.size)
    (ht : t.written = s.written.extract 0 limit) (hs : Extends s r.2) :
    Cut overflow limit r (.failed (.io overflow), t) := by
  obtain ⟨o, s'⟩ := r
  obtain ⟨more, hmore⟩ := hs
  replace hmore : s'.written = s.written ++ more := hmore
  refine .full ?_ ?_
  · rw [hmore, ByteArray.size_append]
    omega
  · rw [ht, hmore, extract_append_of_ge (Nat.le_of_lt h)]

/-- The execution keeps the output that there is, and with a limit it is cut off. -/
structure Truncates (x : Execution α) : Prop where
  grows : Grows x
  cut : ∀ {overflow : IoError} {limit : Nat} {s : State}, s.Free overflow →
    s.written.size ≤ limit → Cut overflow limit (x s) (x (s.limited limit))

theorem cut_ofExcept (r : Except RuntimeError α) {s : State} (hs : s.Free overflow)
    (h : s.written.size ≤ limit) :
    Cut overflow limit (ofExcept r s) (ofExcept r (s.limited limit)) := by
  cases r <;> exact .fits hs h

theorem Truncates.ofExcept (r : Except RuntimeError α) : Truncates (ofExcept r) :=
  ⟨.ofExcept r, cut_ofExcept r⟩

/-- A look-up does not see the sink. -/
theorem Truncates.ask (f : Environment → Except RuntimeError α) : Truncates (ask f) :=
  ⟨.ask f, fun {_ _ s} => cut_ofExcept (f s.environment)⟩

theorem Truncates.bind {x : Execution α} {f : α → Execution β} (hx : Truncates x)
    (hf : ∀ a, Truncates (f a)) : Truncates (x >>= f) := by
  refine ⟨.bind hx.grows fun a => (hf a).grows, fun {overflow limit s} hs h => ?_⟩
  have hcut := hx.cut hs h
  show Cut overflow limit (Execution.bind x f s) (Execution.bind x f (s.limited limit))
  unfold Execution.bind
  generalize x s = r at hcut
  generalize x (s.limited limit) = r' at hcut
  cases hcut with
  | @fits o t ht hsize =>
    cases o with
    | done a => exact (hf a).cut ht hsize
    | failed e => exact .fits ht hsize
    | exhausted => exact .fits ht hsize
  | @full o t t' hsize ht' =>
    cases o with
    | done a => exact .extends hsize ht' ((hf a).grows t)
    | failed e => exact .full hsize ht'
    | exhausted => exact .full hsize ht'

theorem Truncates.assign (name : String) (value : Value) : Truncates (assign name value) :=
  ⟨grows_steps.assign name value, fun hs h => .fits ⟨hs.limit, hs.overflow⟩ h⟩

theorem Truncates.read (name : String) : Truncates (read name) := by
  refine ⟨.read name, fun {overflow limit s} hs h => ?_⟩
  obtain ⟨environment, input, output⟩ := s
  cases input with
  | nil => exact .fits hs h
  | cons b bs =>
    have hs' : Free overflow ⟨environment, (splitLine (b :: bs)).2, output⟩ :=
      ⟨hs.limit, hs.overflow⟩
    exact cut_ofExcept (readLine (splitLine (b :: bs)).1) hs' h

/-- What is shown is written in full, and then the flush may fail, or up to the limit. -/
theorem Truncates.display (value : Value) : Truncates (display value) := by
  refine ⟨.display value, fun {overflow limit s} hs h => ?_⟩
  have hfree := Console.display_of_unlimited (c := s.console) hs.limit value
  have hlimited := Console.display_limited h value
  have hroom : (s.limited limit).console = { s.console with output.limit := some limit } := rfl
  unfold Execution.display
  rw [hroom, hlimited, hfree]
  by_cases hfits : (s.console.output.written ++ (value.text ++ "\n").toUTF8).size ≤ limit
  · rw [if_pos hfits]
    exact cut_ofExcept _ ⟨hs.limit, hs.overflow⟩ hfits
  · rw [if_neg hfits, show s.console.output.overflow = overflow from hs.overflow]
    -- Without the limit the write is done, whatever the flush comes to.
    cases s.console.output.flush <;> exact .full (Nat.lt_of_not_le hfits) rfl

/-- A call is opened in both executions or in none, and it is closed in both, whatever its body
comes to. -/
theorem Truncates.call (p : Procedure) (values : List Value) {body : Execution Unit}
    (hb : Truncates body) : Truncates (call p values body) := by
  refine ⟨.call p values hb.grows, fun {overflow limit s} hs h => ?_⟩
  unfold Execution.call
  have henter : (s.limited limit).environment.enter p values = s.environment.enter p values := rfl
  rw [henter]
  cases s.environment.enter p values with
  | error e => exact .fits hs h
  | ok inner =>
    have hcut := hb.cut (s := { s with environment := inner }) ⟨hs.limit, hs.overflow⟩ h
    have hinner : State.limited limit { s with environment := inner } =
      { s.limited limit with environment := inner } := rfl
    rw [hinner] at hcut
    dsimp only
    generalize body { s with environment := inner } = r at hcut
    generalize body { s.limited limit with environment := inner } = r' at hcut
    cases hcut with
    | @fits o t ht hsize => cases o <;> exact .fits ⟨ht.limit, ht.overflow⟩ hsize
    | @full o t t' hsize ht' => cases o <;> exact .full hsize ht'

/-- All steps are cut off by a limit, whatever calls and reads there are. -/
theorem truncates_steps : Steps Truncates (fun _ => True) where
  result a := .ofExcept (.ok a)
  exhausted := ⟨fun _ => .of_eq rfl, .fits⟩
  look _ := .ask _
  operator _ _ _ := .ofExcept _
  bind := .bind
  assign := .assign
  read _ := .read _
  display := .display
  call _ hv _ hb _ := .bind (.ask _) fun p => .bind hv fun vs =>
    .call p vs (hb p fun _ _ => trivial)

end Execution

/-- A run whose sink holds a number of bytes at most, by the run from the same start whose sink
holds any number of them. If all of the output fits, the run comes to the same: the outcome, the
output, the values of variables and the rest of the input. Otherwise it fails with the error of the
sink, and its output is the part that fits. -/
theorem full_sink_truncates (p : Program) (fuel : Nat) (input : List UInt8) (overflow : IoError)
    (flushFault : Option IoError) (limit : Nat) :
    let free := p.run fuel ⟨input, { overflow, flushFault }⟩
    let full := p.run fuel ⟨input, { limit := some limit, overflow, flushFault }⟩
    if free.2.written.size ≤ limit then full = (free.1, free.2.limited limit)
    else full.1 = .failed (.io overflow) ∧ full.2.written = free.2.written.extract 0 limit := by
  intro free full
  have hstart : State.Free overflow ⟨p.environment, input, { overflow, flushFault }⟩ := ⟨rfl, rfl⟩
  have hcut : Execution.Cut overflow limit free full :=
    ((Execution.truncates_steps.run fuel).2.2.2 p.tree fun _ _ => trivial).cut hstart
      (Nat.zero_le limit)
  generalize free = r at hcut
  generalize full = r' at hcut
  cases hcut with
  | fits _ h => rw [if_pos h]
  | full h ht =>
    rw [if_neg (Nat.not_le.2 h)]
    exact ⟨rfl, ht⟩

end Blockwork
