import Blockwork.Proofs.Descent
import Blockwork.Proofs.Reader
import Blockwork.Proofs.Scanning

/-!
# Descents that follow readers

A part of the descent does what a reader does: they yield the same, and where the reader passes over
tokens the descent asks the lexer for those behind them. So the descent inherits from the reader
what it yields, and how often it has asked is known from how many tokens are left.

* `At`: a state in which some tokens of a text are left, and all rounds so far made progress.
* `Left`: what remains of that behind an error.
* `Follows`: the descent does what a reader does, on texts of a bounded number of tokens; one lemma
  for each way to build a part of the descent.
* `Follows.loop`: a loop ends before the tokens do if each of its turns asks for one. The bound on
  the tokens goes down with each turn, and this is what the bound on the turns is compared with.
-/

namespace Blockwork

namespace Parser

namespace Descent

variable {α β : Type} {whole : List (Except LexError Token)} {finish : Except LexError Token}
  {t : Token} {ts rest r : List Token} {s s' : State}

/-! ## States -/

/-- The token at hand is the first of those that are left. -/
def Holds (finish : Except LexError Token) (s : State) : List Token → Prop
  | [] => finish = .ok s.current
  | t :: rest => s.current = t ∧ s.lexer.scan = ⟨rest, finish⟩

/-- What the lexer gives after the token at hand. -/
def pending (finish : Except LexError Token) : List Token → List (Except LexError Token)
  | [] => []
  | _ :: rest => Scan.outcomes ⟨rest, finish⟩

/-- A state in which tokens are left of a text, after rounds that have all made progress. The lexer
gives `whole` of the text. -/
structure At (whole : List (Except LexError Token)) (finish : Except LexError Token)
    (ts : List Token) (s : State) : Prop where
  holds : Holds finish s ts
  ended : ∀ t, finish = .ok t → t.kind = .endOfInput
  scanned : s.scanned ++ pending finish ts = whole
  rounds : ∀ r ∈ s.rounds, 0 < r.asked

/-- A state that the descent of a text may be left in. -/
structure Left (whole : List (Except LexError Token)) (s : State) : Prop where
  scanned : s.scanned <+: whole
  rounds : ∀ r ∈ s.rounds, 0 < r.asked ∨ r.finished = false

namespace At

theorem left (h : At whole finish ts s) : Left whole s :=
  ⟨⟨_, h.scanned⟩, fun r hr => .inl (h.rounds r hr)⟩

theorem kind (h : At whole finish ts s) : s.current.kind = front ts := by
  cases ts with
  | nil => exact h.ended _ h.holds
  | cons t rest => exact congrArg Token.kind h.holds.1

/-- Each token but the first of those that are left is still to be asked for. -/
theorem length (h : At whole finish ts s) : s.scanned.length + ts.length = whole.length := by
  rw [← h.scanned, List.length_append]
  cases ts <;> simp [pending, Scan.outcomes]

theorem mismatch (h : At whole finish ts s) (expected : Expectation) :
    Parser.mismatch finish expected ts = .mismatch expected s.current.kind s.current.span.line
      (s.current.span.column + 1) := by
  cases ts with
  | nil => rw [show finish = .ok s.current from h.holds]; rfl
  | cons t rest => rw [h.holds.1]; rfl

/-- The lexer is asked for the token behind the one at hand. -/
theorem next (h : At whole finish (t :: rest) s) :
    s.lexer.next.1 = (rest.head?.map .ok).getD finish := by
  rw [Lexer.next_of_scan, h.holds.2]
  cases rest <;> rfl

end At

theorem advance_of_ok (h : s.lexer.next.1 = .ok t) : advance s = (.done (),
    { s with lexer := s.lexer.next.2, current := t, scanned := s.scanned ++ [.ok t] }) := by
  have hnext : s.lexer.next = (.ok t, s.lexer.next.2) := Prod.ext h rfl
  rw [advance, hnext]

theorem advance_of_error {fault : LexError} (h : s.lexer.next.1 = .error fault) :
    advance s = (.failed (.scan fault),
      { s with lexer := s.lexer.next.2, scanned := s.scanned ++ [.error fault] }) := by
  have hnext : s.lexer.next = (.error fault, s.lexer.next.2) := Prod.ext h rfl
  rw [advance, hnext]

theorem round_eq {site : Site} {x : Descent α} {outcome : Outcome α} (h : x s = (outcome, s')) :
    round site x s = (outcome, { s' with
      rounds := s'.rounds ++
        [⟨site, s'.scanned.length - s.scanned.length, outcome.isDone⟩] }) := by
  rw [round, h]

/-- From one token to the one behind it. -/
theorem At.advance (h : At whole finish (t :: rest) s) (hr : ready finish rest = .ok ()) :
    ∃ s', advance s = (.done (), s') ∧ At whole finish rest s' := by
  have hnext := h.next
  have hscanned := h.scanned
  cases rest with
  | nil =>
    cases finish with
    | error fault => cases hr
    | ok last =>
      refine ⟨_, advance_of_ok hnext, rfl, h.ended, ?_, h.rounds⟩
      simpa [pending, Scan.outcomes] using hscanned
  | cons t' rest =>
    have hscan := (Lexer.scan_of_cons (l := s.lexer) (by rw [h.holds.2])).2
    rw [h.holds.2] at hscan
    refine ⟨_, advance_of_ok hnext, ⟨rfl, hscan⟩, h.ended, ?_, h.rounds⟩
    simpa [pending, Scan.outcomes] using hscanned

/-- At the last token before a fault. -/
theorem At.advance_error {e : ParseError} (h : At whole finish (t :: rest) s)
    (hr : ready finish rest = .error e) :
    ∃ s', Descent.advance s = (.failed e, s') ∧ Left whole s' := by
  obtain hr' | ⟨fault, rfl, rfl, hr'⟩ := ready_cases finish rest <;> rw [hr'] at hr <;> cases hr
  refine ⟨_, advance_of_error h.next, ⟨[], ?_⟩, fun r hr => .inl (h.rounds r hr)⟩
  simpa [pending, Scan.outcomes] using h.scanned

/-! ## Following a reader -/

/-- On fewer than `n` tokens of which the first is of some kind, a part of the descent does what a
reader does, and asks the lexer at least `k` times if it is done. -/
structure Follows (K : Token.Kind → Prop) (n k : Nat) (x : Descent α) (y : Reader α) : Prop where
  done : ∀ {whole finish ts s a r}, ts.length < n → K (front ts) → At whole finish ts s →
    y finish ts = .ok (a, r) →
    ∃ s', x s = (.done a, s') ∧ At whole finish r s' ∧ r.length + k ≤ ts.length
  failed : ∀ {whole finish ts s e}, ts.length < n → K (front ts) → At whole finish ts s →
    y finish ts = .error e → ∃ s', x s = (.failed e, s') ∧ Left whole s'

/-- Whatever the first token is. -/
def Anything (_ : Token.Kind) : Prop := True

namespace Follows

variable {K K' : Token.Kind → Prop} {n m k j : Nat} {x : Descent α} {y : Reader α}

theorem zero : Follows K 0 k x y :=
  ⟨fun hl => absurd hl (by omega), fun hl => absurd hl (by omega)⟩

theorem antitone (h : Follows K n k x y) (hm : m ≤ n) : Follows K m k x y :=
  ⟨fun hl => h.done (by omega), fun hl => h.failed (by omega)⟩

theorem atLeast (h : Follows K n k x y) (hj : j ≤ k) : Follows K n j x y where
  done hl hK hs hy := by
    obtain ⟨s', hx, hs', hr⟩ := h.done hl hK hs hy
    exact ⟨s', hx, hs', by omega⟩
  failed := h.failed

theorem when (h : Follows K n k x y) (hK : ∀ kind, K' kind → K kind) : Follows K' n k x y :=
  ⟨fun hl hk => h.done hl (hK _ hk), fun hl hk => h.failed hl (hK _ hk)⟩

theorem pure (a : α) : Follows K n 0 (Pure.pure a) (Pure.pure a) where
  done _ _ hs hy := by
    cases hy
    exact ⟨_, rfl, hs, Nat.le_refl _⟩
  failed _ _ _ hy := by cases hy

theorem reject (e : ParseError) :
    Follows K n k (Descent.reject e : Descent α) (Reader.reject e) where
  done _ _ _ hy := by cases hy
  failed _ _ hs hy := by
    cases hy
    exact ⟨_, rfl, hs.left⟩

theorem fail (expected : Expectation) :
    Follows K n k (Descent.fail expected : Descent α) (Reader.fail expected) where
  done _ _ _ hy := by cases hy
  failed _ _ hs hy := by
    cases hy
    exact ⟨_, by rw [hs.mismatch]; rfl, hs.left⟩

/-- Which way both go depends on the token at hand. -/
theorem peek {f : Token.Kind → Descent α} {g : Token.Kind → Reader α}
    (h : ∀ kind, K kind → Follows (· = kind) n k (f kind) (g kind)) :
    Follows K n k (Descent.peek f) (Reader.peek g) where
  done {whole finish ts s a r} hl hK hs hy := by
    rw [Descent.peek, hs.kind]
    exact (h _ hK).done hl rfl hs hy
  failed {whole finish ts s e} hl hK hs hy := by
    rw [Descent.peek, hs.kind]
    exact (h _ hK).failed hl rfl hs hy

/-- The second part may rely on the first one having asked some number of times. -/
theorem bind {f : α → Descent β} {g : α → Reader β} (hx : Follows K n k x y)
    (hf : ∀ a, Follows Anything m j (f a) (g a)) (hm : n ≤ m + k) :
    Follows K n k (x >>= f) (y >>= g) where
  done {whole finish ts s b r} hl hK hs hy := by
    rw [Reader.bind_apply] at hy
    split at hy
    next a mid hfirst =>
      obtain ⟨s₁, hx₁, hs₁, hr₁⟩ := hx.done hl hK hs hfirst
      obtain ⟨s₂, hx₂, hs₂, hr₂⟩ := (hf a).done (by omega) trivial hs₁ hy
      exact ⟨s₂, (bind_of_done hx₁).trans hx₂, hs₂, by omega⟩
    next => cases hy
  failed {whole finish ts s e} hl hK hs hy := by
    rw [Reader.bind_apply] at hy
    split at hy
    next a mid hfirst =>
      obtain ⟨s₁, hx₁, hs₁, hr₁⟩ := hx.done hl hK hs hfirst
      obtain ⟨s₂, hx₂, hs₂⟩ := (hf a).failed (by omega) trivial hs₁ hy
      exact ⟨s₂, (bind_of_done hx₁).trans hx₂, hs₂⟩
    next e' hfirst =>
      cases hy
      obtain ⟨s₁, hx₁, hs₁⟩ := hx.failed hl hK hs hfirst
      exact ⟨s₁, bind_of_failed hx₁, hs₁⟩

/-- The second part gets as many tokens as the first one, at most. -/
theorem andThen {f : α → Descent β} {g : α → Reader β} (hx : Follows K n k x y)
    (hf : ∀ a, Follows Anything n j (f a) (g a)) : Follows K n k (x >>= f) (y >>= g) :=
  hx.bind hf (Nat.le_add_right n k)

/-- After a token that has been looked at. -/
theorem takeThen {accept : Token.Kind → Option α} {expected : Expectation} {kind : Token.Kind}
    {a : α} {x : Descent β} {g : α → Reader β} (ha : accept kind = some a)
    (hk : kind ≠ .endOfInput) (hx : Follows Anything n j x (g a)) (hm : m ≤ n + 1) :
    Follows (· = kind) m 1 (advance >>= fun _ => x) (Reader.take accept expected >>= g) := by
  -- There is a token at the front, since the kind there is not that of the end of input.
  have htake finish {ts} (hfront : front ts = kind) : ∃ t rest, ts = t :: rest ∧
      (Reader.take accept expected >>= g) finish ts =
        ready finish rest >>= fun _ => g a finish rest := by
    cases ts with
    | nil => exact absurd hfront.symm hk
    | cons t rest =>
      refine ⟨t, rest, rfl, ?_⟩
      rw [Reader.bind_apply, Reader.take_of_eq_some (a := a) (by rw [hfront, ha]), List.tail_cons]
      rcases ready finish rest with e | ⟨⟩ <;> rfl
  constructor
  case done =>
    intro whole finish ts s b r hl hfront hs hy
    obtain ⟨t, rest, rfl, hread⟩ := htake finish hfront
    rw [List.length_cons] at hl ⊢
    rw [hread] at hy
    cases hr : ready finish rest with
    | error e =>
      rw [hr] at hy
      cases hy
    | ok =>
      rw [hr] at hy
      obtain ⟨s₁, hadvance, hs₁⟩ := hs.advance hr
      obtain ⟨s₂, hx₂, hs₂, hlength⟩ := hx.done (by omega) trivial hs₁ hy
      exact ⟨s₂, (bind_of_done hadvance).trans hx₂, hs₂, by omega⟩
  case failed =>
    intro whole finish ts s e hl hfront hs hy
    obtain ⟨t, rest, rfl, hread⟩ := htake finish hfront
    rw [List.length_cons] at hl
    rw [hread] at hy
    cases hr : ready finish rest with
    | error e' =>
      rw [hr] at hy
      cases hy
      obtain ⟨s₁, hadvance, hs₁⟩ := hs.advance_error hr
      exact ⟨s₁, bind_of_failed hadvance, hs₁⟩
    | ok =>
      rw [hr] at hy
      obtain ⟨s₁, hadvance, hs₁⟩ := hs.advance hr
      obtain ⟨s₂, hx₂, hs₂⟩ := hx.failed (by omega) trivial hs₁ hy
      exact ⟨s₂, (bind_of_done hadvance).trans hx₂, hs₂⟩

theorem tokenThen {kind : Token.Kind} {x : Descent β} {g : Unit → Reader β}
    (hk : kind ≠ .endOfInput) (hx : Follows Anything n j x (g ())) (hm : m ≤ n + 1) :
    Follows (· = kind) m 1 (advance >>= fun _ => x) (Reader.token kind >>= g) :=
  takeThen (if_pos rfl) hk hx hm

theorem refuse {accept : Token.Kind → Option α} {expected : Expectation} {kind : Token.Kind}
    (ha : accept kind = none) :
    Follows (· = kind) n k (Descent.fail expected) (Reader.take accept expected) where
  done {whole finish ts s a r} _ hfront _ hy := by
    rw [Reader.take_of_eq_none (by rw [show front ts = kind from hfront, ha])] at hy
    cases hy
  failed {whole finish ts s e} _ hfront hs hy := by
    rw [Reader.take_of_eq_none (by rw [show front ts = kind from hfront, ha])] at hy
    cases hy
    exact ⟨_, by rw [hs.mismatch]; rfl, hs.left⟩

theorem token {kind : Token.Kind} (hk : kind ≠ .endOfInput) :
    Follows (· = kind) n 1 advance (Reader.token kind) := by
  rw [← bind_pure advance, ← bind_pure (Reader.token kind)]
  exact tokenThen hk (.pure ()) (Nat.le_succ n)

theorem eat {kind : Token.Kind} (hk : kind ≠ .endOfInput) :
    Follows K n 1 (Descent.eat kind) (Reader.token kind) := by
  show Follows K n 1 _ (Reader.peek fun _ => Reader.token kind)
  refine peek fun found _ => ?_
  split
  next h =>
    subst h
    exact token hk
  next h => exact refuse (if_neg h)

theorem name : Follows K n 1 Descent.name Reader.name := by
  show Follows K n 1 _ (Reader.peek fun _ => Reader.name)
  refine peek fun found _ => ?_
  split
  next word _ =>
    rw [← bind_pure Reader.name]
    have hk : Token.Kind.identifier word ≠ .endOfInput := by simp
    exact takeThen rfl hk (.pure word) (Nat.le_succ n)
  next h =>
    refine refuse ?_
    split
    next word _ => exact absurd rfl (h word)
    next => rfl

theorem round {site : Site} (h : Follows K n k x y) (hk : 0 < k) :
    Follows K n k (Descent.round site x) y where
  done {whole finish ts s a r} hl hK hs hy := by
    obtain ⟨s', hx, hs', hr⟩ := h.done hl hK hs hy
    have hlength := hs.length
    have hlength' := hs'.length
    refine ⟨_, round_eq hx, ⟨hs'.holds, hs'.ended, hs'.scanned, ?_⟩, hr⟩
    refine List.forall_mem_append.2 ⟨hs'.rounds, List.forall_mem_singleton.2 ?_⟩
    show 0 < s'.scanned.length - s.scanned.length
    omega
  failed {whole finish ts s e} hl hK hs hy := by
    obtain ⟨s', hx, hs'⟩ := h.failed hl hK hs hy
    exact ⟨_, round_eq hx, hs'.scanned,
      List.forall_mem_append.2 ⟨hs'.rounds, List.forall_mem_singleton.2 (.inr rfl)⟩⟩

/-- A loop whose turns ask for one token at least ends before the tokens do. -/
theorem loop {site : Site} {turn : Token.Kind → β → Option (Descent β)}
    (work : Token.Kind → β → Option (Reader β)) {z : β → Reader β}
    (hz : ∀ b, z b = Reader.peek fun kind =>
      match work kind b with
      | none => Pure.pure b
      | some y => y >>= z)
    (hturn : ∀ kind b, Option.Rel (Follows (· = kind) n 1) (turn kind b) (work kind b))
    (hm : m ≤ n) {bound : Nat} (hbound : m ≤ bound) (b : β) :
    Follows Anything m 0 (Descent.loop site turn bound b) (z b) := by
  induction m generalizing bound b with
  | zero => exact .zero
  | succ m ih =>
    obtain ⟨bound, rfl⟩ : ∃ bound', bound = bound' + 1 := ⟨bound - 1, by omega⟩
    rw [Descent.loop, hz]
    refine peek fun kind _ => ?_
    have hrel := hturn kind b
    generalize turn kind b = t, work kind b = w at hrel
    cases hrel with
    | none => exact .pure b
    | some hxy =>
      have hrest : ∀ b, Follows Anything m 0 (Descent.loop site turn bound b) (z b) :=
        fun b => ih (by omega) (by omega) b
      have hround : Follows (· = kind) (m + 1) 1 (Descent.round site _) _ :=
        (hxy.antitone hm).round Nat.one_pos
      exact (hround.bind hrest (Nat.le_refl _)).atLeast (Nat.zero_le 1)

/-- A loop that collects does what a reader does that puts the first item in front of the rest. -/
theorem collect {site : Site} {turn : Token.Kind → Option (Descent α)}
    (work : Token.Kind → Option (Reader α)) {z : Reader (List α)}
    (hz : z = Reader.peek fun kind =>
      match work kind with
      | none => Pure.pure []
      | some y => y >>= fun a => z >>= fun as => Pure.pure (a :: as))
    (hturn : ∀ kind, Option.Rel (Follows (· = kind) n 1) (turn kind) (work kind)) {bound : Nat}
    (hbound : n ≤ bound) (items : List α) :
    Follows Anything n 0 (Descent.collect site turn bound items)
      (z >>= fun as => Pure.pure (items ++ as)) := by
  refine loop (z := fun items => z >>= fun as => Pure.pure (items ++ as))
    (fun kind items => (work kind).map fun y => y >>= fun a => Pure.pure (items ++ [a]))
    (fun items => ?_) (fun kind items => ?_) (Nat.le_refl n) hbound items
  · conv => lhs; rw [hz, Reader.peek_bind]
    congr 1
    funext kind
    cases work kind <;>
      simp only [Option.map_none, Option.map_some, pure_bind, bind_assoc, List.append_nil,
        List.append_assoc, List.singleton_append]
  · have hrel := hturn kind
    generalize turn kind = t, work kind = w at hrel
    cases hrel with
    | none => exact .none
    | some hxy => exact .some (hxy.andThen fun a => .pure _)

/-- The items of a list, if there is an equation for the reader of it and one for that of the rest
of it. -/
theorem commaList {site : Site} {more all : Reader (List α)}
    (hmore : more = Reader.peek fun kind =>
      if kind = .symbol .comma then do
        Reader.token (.symbol .comma)
        let a ← y
        let as ← more
        Pure.pure (a :: as)
      else Pure.pure [])
    (hall : all = Reader.peek fun kind =>
      if kind = .symbol .rightParen then Pure.pure []
      else do
        let a ← y
        let as ← more
        Pure.pure (a :: as))
    (hx : Follows Anything n 1 x y) {bound : Nat} (hbound : n ≤ bound) :
    Follows Anything n 0 (Descent.commaList site x bound) all := by
  rw [hall]
  refine peek fun kind _ => ?_
  split
  next => exact .pure []
  next =>
    refine ((hx.when fun _ _ => trivial).andThen (j := 0) fun a => ?_).atLeast (Nat.zero_le 1)
    refine collect (fun kind => if kind = .symbol .comma then
      some (Reader.token (.symbol .comma) >>= fun _ => y) else none) ?_ (fun kind => ?_) hbound [a]
    · conv => lhs; rw [hmore]
      congr 1
      funext kind
      split <;> simp
    · split
      next h =>
        subst h
        exact .some (tokenThen (by simp) hx (Nat.le_succ n))
      next => exact .none

end Follows

end Descent

end Parser

end Blockwork
