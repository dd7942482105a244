import Blockwork.Proofs.Linking
import Blockwork.Proofs.Matching
import Blockwork.Proofs.Output

/-!
# Machines that follow a run

A machine follows a part of a run if it comes to a machine that matches the environment at the end
of that part, and has printed the words of the values that were displayed on the way. If the part
fails with a division by zero, the machine comes to the division guard.

* `Keeps`: what the code of a part leaves as it is.
* `Reaches`: the machine follows a part of a run; `Reaches.bind` puts two parts together.

No other failure is spoken of, and nothing is said of runs with a write that is not `Proper`.
-/

namespace Blockwork

open Traced

/-! ## What stays -/

/-- The two pointers are what they were, and so is the stack from `$sp` on, except for the addresses
in `own`. -/
structure Keeps (own : Int → Prop) (m m' : Machine) : Prop where
  sp : m'.get .sp = m.get .sp
  fp : m'.get .fp = m.get .fp
  stack : ∀ s a, m.get .sp = .stack s → s ≤ a → ¬own a → m'.stack a = m.stack a

namespace Keeps

variable {own own' : Int → Prop} {m m' m'' : Machine}

theorem refl (own : Int → Prop) (m : Machine) : Keeps own m m := ⟨rfl, rfl, fun _ _ _ _ _ => rfl⟩

theorem trans (h : Keeps own m m') (h' : Keeps own m' m'') : Keeps own m m'' where
  sp := h'.sp.trans h.sp
  fp := h'.fp.trans h.fp
  stack s a hs ha ho := (h'.stack s a (h.sp.trans hs) ha ho).trans (h.stack s a hs ha ho)

theorem mono (h : Keeps own m m') (ho : ∀ a, own a → own' a) : Keeps own' m m' :=
  ⟨h.sp, h.fp, fun s a hs ha hn => h.stack s a hs ha fun hown => hn (ho a hown)⟩

/-- Changes of other registers, of the place in the code, and of the output. -/
theorem of_eq (hsp : m'.get .sp = m.get .sp) (hfp : m'.get .fp = m.get .fp)
    (hstack : m'.stack = m.stack) : Keeps own m m' :=
  ⟨hsp, hfp, fun _ _ _ _ _ => by rw [hstack]⟩

end Keeps

/-! ## Parts of a run -/

/-- A machine comes to the division guard, with some text printed on the way. -/
def ReachesGuard (lines : List Line) (m : Machine) (text : String) : Prop :=
  ∃ m', m.Runs lines m' ∧ m'.output = m.output ++ text ∧ m'.exitCode = none ∧
    CodeAt lines m'.line guardCode

/-- A machine follows a part of a run: it comes to one for which `post` holds of the result, or to
the division guard. -/
def Reaches {α : Type} (p : Program) (lines : List Line) (m : Machine) (r : Traced.Result α)
    (post : α → Machine → Prop) : Prop :=
  (∀ ev ∈ r.events, ev.Proper p) →
    (∀ a, r.outcome = .done a → ∃ m', m.Runs lines m' ∧ m'.output = m.output ++ printed r.events ∧
      Matches p r.state.environment m' ∧ post a m') ∧
    (r.outcome = .failed .divisionByZero → ReachesGuard lines m (printed r.events))

/-- The machine behind the code of an expression, which has `n` lines. -/
def Computed (m : Machine) (n : Nat) (v : Value) (m' : Machine) : Prop :=
  m'.line = m.line + n ∧ m'.get .v0 = v.content ∧ Keeps (fun _ => False) m m'

/-- The machine behind the code of a statement, which has `n` lines. -/
def Performed (layout : Layout) (m : Machine) (n : Nat) (m' : Machine) : Prop :=
  m'.line = m.line + n ∧ Keeps (Owned layout m) m m'

namespace Reaches

variable {α β : Type} {p : Program} {lines : List Line} {m m₁ : Machine} {s : State}

/-- Steps behind a part of a run that print nothing. -/
theorem followed {r : Traced.Result α} {post post' : α → Machine → Prop}
    (h : Reaches p lines m r post) (hp : ∀ a m', Matches p r.state.environment m' → post a m' →
      ∃ m'', m'.Runs lines m'' ∧ m''.output = m'.output ∧ Matches p r.state.environment m'' ∧
        post' a m'') : Reaches p lines m r post' := by
  intro hproper
  obtain ⟨hd, hg⟩ := h hproper
  refine ⟨fun a ha => ?_, hg⟩
  obtain ⟨m', hrun, hout, hm, hpost⟩ := hd a ha
  obtain ⟨m'', hrun', hout', hm', hpost'⟩ := hp a m' hm hpost
  exact ⟨m'', hrun.trans hrun', hout'.trans hout, hm', hpost'⟩

theorem mono {r : Traced.Result α} {post post' : α → Machine → Prop}
    (h : Reaches p lines m r post) (hp : ∀ a m', post a m' → post' a m') :
    Reaches p lines m r post' :=
  h.followed fun a m' hm hpost => ⟨m', .refl, rfl, hm, hp a m' hpost⟩

/-- Steps before a part of a run that print nothing. -/
theorem steps {r : Traced.Result α} {post : α → Machine → Prop} (hrun : m.Runs lines m₁)
    (hout : m₁.output = m.output) (h : Reaches p lines m₁ r post) :
    Reaches p lines m r post := by
  intro hproper
  obtain ⟨hd, hg⟩ := h hproper
  refine ⟨fun a ha => ?_, fun he => ?_⟩
  · obtain ⟨m', hrun', hout', hm, hpost⟩ := hd a ha
    exact ⟨m', hrun.trans hrun', hout ▸ hout', hm, hpost⟩
  · obtain ⟨m', hrun', hout', hm⟩ := hg he
    exact ⟨m', hrun.trans hrun', hout ▸ hout', hm⟩

/-- A part of a run without events, after steps that print nothing. -/
theorem of_ask {f : Environment → Except RuntimeError α} {post : α → Machine → Prop}
    (hd : ∀ a, f s.environment = .ok a → ∃ m', m.Runs lines m' ∧ m'.output = m.output ∧
      Matches p s.environment m' ∧ post a m')
    (hg : f s.environment = .error .divisionByZero → ReachesGuard lines m "") :
    Reaches p lines m (Traced.ask f s) post := by
  intro _
  have hs := ask_state f s
  simp only [Traced.ask, record, Execution.ask, Execution.ofExcept] at hs ⊢
  cases hf : f s.environment with
  | ok a =>
    refine ⟨fun a' ha => ?_, fun he => (by cases he)⟩
    cases ha
    obtain ⟨m', hrun, hout, hm, hpost⟩ := hd a hf
    exact ⟨m', hrun, by rw [hout]; exact (String.append_empty).symm, hm, hpost⟩
  | error e =>
    refine ⟨fun a' ha => (by cases ha), fun he => ?_⟩
    cases he
    exact hg hf

/-- A part of a run that does nothing, after steps that print nothing. -/
theorem of_pure {a : α} {post : α → Machine → Prop} (hrun : m.Runs lines m₁)
    (hout : m₁.output = m.output) (hm : Matches p s.environment m₁) (hpost : post a m₁) :
    Reaches p lines m ((pure a : Traced α) s) post :=
  of_ask (f := fun _ => .ok a) (fun a' ha => by cases ha; exact ⟨m₁, hrun, hout, hm, hpost⟩)
    fun he => by cases he

/-- One part after another. -/
theorem bind {x : Traced α} {f : α → Traced β} {post₁ : α → Machine → Prop}
    {post : β → Machine → Prop} (hx : Reaches p lines m (x s) post₁)
    (hf : ∀ a t es m', x s = ⟨.done a, t, es⟩ → Matches p t.environment m' → post₁ a m' →
      Reaches p lines m' (f a t) post) : Reaches p lines m ((x >>= f) s) post := by
  intro hproper
  obtain ⟨a, t, es, h, he⟩ | ⟨e, t, es, h, he⟩ | ⟨t, es, h, he⟩ := bind_result x f s <;>
    rw [he] at hproper ⊢ <;> rw [h] at hx
  · obtain ⟨m', hrun, hout, hm, hpost⟩ :=
      (hx fun ev hev => hproper ev (List.mem_append_left _ hev)).1 a rfl
    obtain ⟨hd, hg⟩ := hf a t es m' h hm hpost fun ev hev =>
      hproper ev (List.mem_append_right _ hev)
    rw [printed_append, ← String.append_assoc, ← hout]
    refine ⟨fun b hb => ?_, fun hb => ?_⟩
    · obtain ⟨m'', hrun', hout', hm', hpost'⟩ := hd b hb
      exact ⟨m'', hrun.trans hrun', hout', hm', hpost'⟩
    · obtain ⟨m'', hrun', hout', hm'⟩ := hg hb
      exact ⟨m'', hrun.trans hrun', by rw [hout', ← String.append_assoc, ← hout], hm'⟩
  · refine ⟨fun b hb => (by cases hb), fun hb => ?_⟩
    cases hb
    exact (hx hproper).2 rfl
  · exact ⟨fun b hb => (by cases hb), fun hb => (by cases hb)⟩

end Reaches

end Blockwork
