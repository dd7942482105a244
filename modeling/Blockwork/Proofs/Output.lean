import Blockwork.Proofs.Emission
import Blockwork.Proofs.Trace

/-!
# What is displayed

A run writes the texts of the displayed values to its console, and compiled code prints their words.
Both go by the events of the run.

* `shown`: what a run writes for its events; `Program.written_of_run`.
* `printed`: what compiled code prints for the events of a run.
-/

namespace Blockwork

/-! ## Texts and words -/

/-- What a run writes for an event: the text of a displayed value, on a line of its own. -/
def Event.shown : Event → String
  | .display value => value.text ++ "\n"
  | .write .. | .read _ => ""

/-- What a run writes for its events. -/
def shown : List Event → String
  | [] => ""
  | event :: events => event.shown ++ shown events

theorem shown_append (a b : List Event) : shown (a ++ b) = shown a ++ shown b := by
  induction a with
  | nil => simp [shown]
  | cons event a ih => simp [shown, ih, String.append_assoc]

/-- What compiled code prints for an event: the word of a displayed value, on a line of its own. -/
def Event.printed : Event → String
  | .display value => String.ofList (decimal value.asWord.toInt) ++ "\n"
  | .write .. | .read _ => ""

/-- What compiled code prints for the events of a run. -/
def printed : List Event → String
  | [] => ""
  | event :: events => event.printed ++ printed events

theorem printed_append (a b : List Event) : printed (a ++ b) = printed a ++ printed b := by
  induction a with
  | nil => simp [printed]
  | cons event a ih => simp [printed, ih, String.append_assoc]

/-! ## The console of a run -/

namespace Traced

variable {α β : Type}

/-- Unless the console fails, the texts of the displayed values are written, and nothing else. -/
def Shows (x : Traced α) : Prop :=
  ∀ s : State, (∀ e, (x s).outcome ≠ .failed (.io e)) →
    (x s).state.console.output.written = s.console.output.written ++ (shown (x s).events).toUTF8

theorem Shows.of_silent {x : Traced α}
    (h : ∀ s, (x s).state.console.output = s.console.output ∧ shown (x s).events = "") :
    Shows x := fun s _ => by
  rw [(h s).1, (h s).2]
  simp [String.toUTF8]

theorem Shows.bind {x : Traced α} {f : α → Traced β} (hx : Shows x) (hf : ∀ a, Shows (f a)) :
    Shows (x >>= f) := by
  intro s hio
  have hs := hx s
  obtain ⟨a, t, es, h, he⟩ | ⟨e, t, es, h, he⟩ | ⟨t, es, h, he⟩ := bind_result x f s <;>
    rw [h] at hs <;> rw [he] at hio ⊢
  · rw [hf a t hio, hs (fun _ h => by cases h), shown_append]
    simp [String.toUTF8, ByteArray.append_assoc]
  · exact hs fun e' he => hio e' (by cases he; rfl)
  · exact hs fun _ he => by cases he

theorem Shows.ask (f : Environment → Except RuntimeError α) : Shows (Traced.ask f) :=
  .of_silent fun s => ⟨by rw [ask_state], rfl⟩

theorem Shows.call {p : Procedure} {values : List Value} {body : Traced Unit} (hb : Shows body) :
    Shows (Traced.call p values body) := by
  intro s hio
  obtain ⟨e, -, he⟩ | ⟨inner, r, -, hr, he⟩ := call_result p values body s <;> rw [he] at hio ⊢
  · simp [shown, String.toUTF8]
  · have hs := hb { s with environment := inner }
    rw [hr] at hs
    refine hs fun e he => hio e ?_
    rw [he]
    rfl

theorem Shows.display (value : Value) : Shows (Traced.display value) := by
  intro s hio
  simp only [Traced.display, record, Execution.display, Console.display] at hio ⊢
  cases hw : s.console.output.write (value.text ++ "\n") with
  | mk result output =>
    rw [hw] at hio
    cases result with
    | error e => exact absurd rfl (hio e)
    | ok =>
      have hwritten := Sink.written_of_write hw
      simp only [Execution.ofExcept, shown, Event.shown, String.append_empty]
      split <;> exact hwritten

theorem shows_rules : Rules Shows (fun _ => Shows) where
  ask := .ask
  exhausted := .of_silent fun _ => ⟨rfl, rfl⟩
  bind := .bind
  call hv hb := .bind (.ask _) fun p => .bind hv fun _ => .call (hb p)
  compute hx := hx
  sequence := .bind
  assign _ := .of_silent fun _ => ⟨rfl, rfl⟩
  read {A name} := by
    refine .of_silent fun s => ⟨?_, rfl⟩
    have hread : (s.console.readInteger name).2.output = s.console.output := by
      unfold Console.readInteger
      split <;> rfl
    simp only [Traced.read, record, Execution.read, Execution.ofExcept]
    split <;> exact hread
  display := .display _

end Traced

/-- A run whose console does not fail writes what its events show. -/
theorem Program.written_of_run (fuel : Nat) (p : Program) (console : Console)
    (hio : ∀ e, (p.run fuel console).1 ≠ .failed (.io e)) :
    (p.run fuel console).2.console.output.written =
      console.output.written ++ (shown (p.events fuel console)).toUTF8 := by
  rw [← forget_trace] at hio ⊢
  exact (Traced.shows_rules.trace fuel).2.2.2 (fun _ => True) p.tree (fun _ _ => trivial)
    ⟨p.environment, console⟩ hio

end Blockwork
