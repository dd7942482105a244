import Blockwork.Proofs.Grammar
import Blockwork.Proofs.Spelling

/-!
# Readers that look one token ahead

A reader takes a part off the front of the tokens. All it can see beyond the part is the kind of the
next token, so it does the same in front of any other rest that begins with a token of that kind.
Where it gets stuck, what it has passed over is the beginning of a part.

* `Reader`: the readers; `take`, `peek`, `fail` and the monad's operations build them.
* `erase`: the parser's functions keep a proof that the rest is shorter; a reader has the rest
  alone. `erase_bind` and its companions turn a function of the parser into a reader, step by step.
* `Predictive`: the property above, for texts of a bounded number of tokens; one lemma for each way
  to build a reader.
-/

namespace Blockwork

namespace Parser

theorem front_cons (t : Token) (ts : List Token) : front (t :: ts) = t.kind := rfl

/-- A part of the parser, without a proof that the rest is shorter. -/
def Reader (α : Type) : Type :=
  Except LexError Token → List Token → Except ParseError (α × List Token)

namespace Reader

variable {α β : Type}

/-- One part after another. -/
protected def bind (x : Reader α) (f : α → Reader β) : Reader β := fun finish ts =>
  match x finish ts with
  | .ok (a, r) => f a finish r
  | .error e => .error e

instance : Monad Reader where
  pure a _ ts := .ok (a, ts)
  bind := Reader.bind

instance : LawfulMonad Reader :=
  LawfulMonad.mk' Reader
    (fun x => by
      funext finish ts
      show Reader.bind x _ finish ts = x finish ts
      rw [Reader.bind]
      rcases x finish ts with e | ⟨a, r⟩ <;> rfl)
    (fun _ _ => rfl)
    (fun x f g => by
      funext finish ts
      show Reader.bind (Reader.bind x f) g finish ts = Reader.bind x _ finish ts
      simp only [Reader.bind]
      rcases x finish ts with e | ⟨a, r⟩ <;> rfl)

theorem bind_apply (x : Reader α) (f : α → Reader β) (finish : Except LexError Token)
    (ts : List Token) : (x >>= f) finish ts =
      match x finish ts with
      | .ok (a, r) => f a finish r
      | .error e => .error e := rfl

/-- One token that is accepted. -/
def take (accept : Token.Kind → Option α) (expected : Expectation) : Reader α := fun finish ts =>
  match accept (front ts) with
  | some a => (ready finish ts.tail).map fun _ => (a, ts.tail)
  | none => .error (mismatch finish expected ts)

/-- A token of the given kind. -/
def token (kind : Token.Kind) : Reader Unit :=
  take (fun found => if found = kind then some () else none) (.kind kind)

/-- Any name. -/
def name : Reader String :=
  take (fun found => match found with | .identifier name => some name | _ => none) .identifier

/-- Any number. -/
def number : Reader Int32 :=
  take (fun found => match found with | .integer value => some value | _ => none) .expression

/-- Goes on by the kind of the next token. -/
def peek (f : Token.Kind → Reader α) : Reader α := fun finish ts => f (front ts) finish ts

theorem peek_bind (f : Token.Kind → Reader α) (g : α → Reader β) :
    peek f >>= g = peek fun kind => f kind >>= g := rfl

/-- Accepts nothing. -/
def fail (expected : Expectation) : Reader α := fun finish ts =>
  .error (mismatch finish expected ts)

/-- Gives up with an error that is not about the next token. -/
def reject (e : ParseError) : Reader α := fun _ _ => .error e

variable {finish : Except LexError Token} {ts : List Token}

theorem take_of_eq_some {accept : Token.Kind → Option α} {expected : Expectation} {a : α}
    (h : accept (front ts) = some a) :
    take accept expected finish ts = (ready finish ts.tail).map fun _ => (a, ts.tail) := by
  rw [take, h]

theorem take_of_eq_none {accept : Token.Kind → Option α} {expected : Expectation}
    (h : accept (front ts) = none) :
    take accept expected finish ts = .error (mismatch finish expected ts) := by
  rw [take, h]

theorem token_of_eq {kind : Token.Kind} (h : front ts = kind) :
    token kind finish ts = (ready finish ts.tail).map fun _ => ((), ts.tail) :=
  take_of_eq_some (if_pos h)

theorem token_of_ne {kind : Token.Kind} (h : front ts ≠ kind) :
    token kind finish ts = .error (mismatch finish (.kind kind) ts) :=
  take_of_eq_none (if_neg h)

end Reader

/-! ## From the parser's functions to readers -/

section Erase

variable {α β : Type} {P Q : List Token → Prop} {finish : Except LexError Token}
  {ts : List Token}

/-- A result of the parser without the proof about its rest. -/
def erase (x : Except ParseError (α × { r // P r })) : Except ParseError (α × List Token) :=
  x.map fun p => (p.1, p.2.1)

theorem erase_eq_ok {x : Except ParseError (α × { r // P r })} {a : α} {r : List Token}
    (h : erase x = .ok (a, r)) : ∃ h, x = .ok (a, ⟨r, h⟩) := by
  rcases x with e | ⟨a', r', hr⟩
  · cases h
  · cases h
    exact ⟨hr, rfl⟩

theorem erase_bind {x : Except ParseError (β × { r // P r })}
    {f : β × { r // P r } → Except ParseError (α × { r // Q r })} {y : Reader β}
    {g : β → Reader α} (hx : erase x = y finish ts)
    (hf : ∀ b r h, erase (f (b, ⟨r, h⟩)) = g b finish r) :
    erase (x >>= f) = (y >>= g) finish ts := by
  show _ = Reader.bind y g finish ts
  rw [Reader.bind, ← hx]
  rcases x with e | ⟨b, r, h⟩
  · rfl
  · exact hf b r h

/-- The parser passes over a token of a kind. -/
theorem erase_eat_bind {kind : Token.Kind} (hk : kind ≠ .endOfInput)
    {f : Shorter ts → Except ParseError (α × { r // P r })} {g : Unit → Reader α}
    (hf : ∀ r h, erase (f ⟨r, h⟩) = g () finish r) :
    erase (eat finish kind ts >>= f) = (Reader.token kind >>= g) finish ts := by
  show _ = Reader.bind (Reader.token kind) g finish ts
  rw [Reader.bind]
  cases ts with
  | nil =>
    rw [Reader.token_of_ne (by exact hk.symm)]
    rfl
  | cons t rest =>
    by_cases ht : t.kind = kind
    · rw [Reader.token_of_eq (by exact ht), eat, if_pos ht, List.tail_cons]
      rcases ready finish rest with e | ⟨⟩
      · rfl
      · exact hf rest _
    · rw [Reader.token_of_ne (by exact ht), eat, if_neg ht]
      rfl

/-- The parser passes over a token that it has seen. -/
theorem erase_take_bind {t : Token} {accept : Token.Kind → Option β} {expected : Expectation}
    {f : Unit → Except ParseError (α × { r // P r })} {g : β → Reader α} {b : β}
    (hk : accept t.kind = some b) (hf : erase (f ()) = g b finish ts) :
    erase (ready finish ts >>= f) = (Reader.take accept expected >>= g) finish (t :: ts) := by
  show _ = Reader.bind (Reader.take accept expected) g finish (t :: ts)
  rw [Reader.bind, Reader.take_of_eq_some (by exact hk), List.tail_cons]
  rcases ready finish ts with e | ⟨⟩
  · rfl
  · exact hf

theorem erase_ready_bind {t : Token} {kind : Token.Kind}
    {f : Unit → Except ParseError (α × { r // P r })} {g : Unit → Reader α} (hk : t.kind = kind)
    (hf : erase (f ()) = g () finish ts) :
    erase (ready finish ts >>= f) = (Reader.token kind >>= g) finish (t :: ts) :=
  erase_take_bind (if_pos hk) hf

theorem erase_identifier : erase (identifier finish ts) = Reader.name finish ts := by
  cases ts with
  | nil => rfl
  | cons t rest =>
    rw [identifier]
    split
    next name hk =>
      have hname : Reader.name finish (t :: rest) =
          (ready finish rest).map fun _ => (name, rest) :=
        Reader.take_of_eq_some (by rw [front, hk])
      rw [hname]
      rcases ready finish rest with e | ⟨⟩ <;> rfl
    next hk =>
      have hname : Reader.name finish (t :: rest) = .error (mismatch finish .identifier _) :=
        Reader.take_of_eq_none (by
          rw [front]
          split
          next name h => exact absurd h (hk name)
          next => rfl)
      rw [hname]
      rfl

theorem erase_pure {a : α} {r : List Token} (h : P r) :
    erase (.ok (a, (⟨r, h⟩ : { r // P r }))) = (pure a : Reader α) finish r := rfl

/-- The proof about the rest may change at the end. -/
theorem erase_bind_pure {x : Except ParseError (α × { r // P r })}
    {h : ∀ p : α × { r // P r }, Q p.2.1} :
    erase (x >>= fun p => .ok (p.1, (⟨p.2.1, h p⟩ : { r // Q r }))) = erase x := by
  rcases x with e | ⟨b, r, hr⟩ <;> rfl

end Erase

/-! ## One token ahead -/

/-- A rest that a reader takes for another one: the next tokens are of the same kind, and the text
is not faulty there. -/
structure Passes (finish : Except LexError Token) (r' r : List Token) : Prop where
  ready : ready finish r' = .ok ()
  front : front r' = front r

theorem Passes.append {finish : Except LexError Token} {r' r : List Token}
    (h : Passes finish r' r) (c : List Token) : Passes finish (c ++ r') (c ++ r) := by
  cases c with
  | nil => exact h
  | cons t c => exact ⟨rfl, rfl⟩

/-- The words of one part followed by a word of another. -/
def Then (L M : List Token.Kind → Prop) (word : List Token.Kind) : Prop :=
  ∃ u v, L u ∧ M v ∧ u ++ v = word

/-- A reader of parts whose words are in `L`, on fewer than `n` tokens. What it passes over is a
word in `L` if it is done, and then it has not come to a fault, unless it began at one. If it gets
stuck, some kinds that can be found in a text make it a word in `L`. It does the same in front of
every rest that it takes for the one that is there, unless it got stuck because the text is
faulty. -/
structure Predictive {α : Type} (n : Nat) (L : List Token.Kind → Prop) (x : Reader α) : Prop where
  inhabited : ∃ w, AllProper w ∧ L w
  done : ∀ {finish ts a r}, ts.length < n → x finish ts = .ok (a, r) →
    ∃ c, ts = c ++ r ∧ L (c.map Token.kind) ∧
      ∀ finish' r', Passes finish' r' r → x finish' (c ++ r') = .ok (a, r')
  settled : ∀ {finish ts a r}, ts.length < n → x finish ts = .ok (a, r) →
    ready finish ts = .ok () → ready finish r = .ok ()
  stuck : ∀ {finish ts e}, ts.length < n → x finish ts = .error e →
    ∃ c r expected, ts = c ++ r ∧ e = mismatch finish expected r ∧
      (∃ w, AllProper w ∧ L (c.map Token.kind ++ w)) ∧
      (ready finish r = .ok () → ∀ finish' r', Passes finish' r' r →
        x finish' (c ++ r') = .error (mismatch finish' expected r'))

theorem ready_cases (finish : Except LexError Token) (ts : List Token) :
    ready finish ts = .ok () ∨
      ∃ fault, finish = .error fault ∧ ts = [] ∧ ready finish ts = .error (.scan fault) := by
  cases ts with
  | cons t ts => exact .inl rfl
  | nil =>
    cases finish with
    | ok t => exact .inl rfl
    | error fault => exact .inr ⟨fault, rfl, rfl, rfl⟩

namespace Predictive

variable {α β : Type} {n m : Nat} {L L' M : List Token.Kind → Prop} {x : Reader α}

theorem zero (h : ∃ w, AllProper w ∧ L w) : Predictive 0 L x :=
  ⟨h, fun hl => absurd hl (by omega), fun hl => absurd hl (by omega),
    fun hl => absurd hl (by omega)⟩

theorem antitone (h : Predictive n L x) (hm : m ≤ n) : Predictive m L x :=
  ⟨h.inhabited, fun hl => h.done (by omega), fun hl => h.settled (by omega),
    fun hl => h.stuck (by omega)⟩

theorem mono (h : Predictive n L x) (hL : ∀ w, L w → L' w) : Predictive n L' x where
  inhabited := h.inhabited.imp fun w => And.imp_right (hL w)
  done hl hx := by
    obtain ⟨c, hts, hc, hsame⟩ := h.done hl hx
    exact ⟨c, hts, hL _ hc, hsame⟩
  settled := h.settled
  stuck hl hx := by
    obtain ⟨c, r, expected, hts, he, ⟨w, hp, hw⟩, hsame⟩ := h.stuck hl hx
    exact ⟨c, r, expected, hts, he, ⟨w, hp, hL _ hw⟩, hsame⟩

theorem pure (a : α) : Predictive n (· = []) (Pure.pure a : Reader α) where
  inhabited := ⟨[], allProper_nil, rfl⟩
  done hl hx := by
    cases hx
    exact ⟨[], rfl, rfl, fun _ _ _ => rfl⟩
  settled hl hx hr := by
    cases hx
    exact hr
  stuck hl hx := by cases hx

theorem fail (expected : Expectation) (h : ∃ w, AllProper w ∧ L w) :
    Predictive n L (Reader.fail expected : Reader α) where
  inhabited := h
  done hl hx := by cases hx
  settled hl hx := by cases hx
  stuck {finish ts e} hl hx := by
    cases hx
    exact ⟨[], ts, expected, rfl, rfl, h, fun _ _ _ _ => rfl⟩

/-- The second part may rely on the first one having passed over some tokens. -/
theorem bind [Inhabited α] {f : α → Reader β} (hx : Predictive n L x)
    (hf : ∀ a, Predictive m M (f a)) (hm : ∀ w, L w → n ≤ m + w.length) :
    Predictive n (Then L M) (x >>= f) where
  inhabited := by
    obtain ⟨u, hpu, hu⟩ := hx.inhabited
    obtain ⟨v, hpv, hv⟩ := (hf default).inhabited
    exact ⟨u ++ v, allProper_append.2 ⟨hpu, hpv⟩, u, v, hu, hv, rfl⟩
  done {finish ts b r} hl h := by
    replace h : Reader.bind x f finish ts = .ok (b, r) := h
    rw [Reader.bind] at h
    split at h
    next a mid hfirst =>
      obtain ⟨c, rfl, hc, hsame⟩ := hx.done hl hfirst
      have hlength := hm _ hc
      rw [List.length_map] at hlength
      rw [List.length_append] at hl
      obtain ⟨c₂, rfl, hc₂, hsame₂⟩ := (hf a).done (by omega) h
      refine ⟨c ++ c₂, by simp, ⟨_, _, hc, hc₂, by simp⟩, fun finish' r' hr => ?_⟩
      show Reader.bind x f finish' _ = _
      rw [Reader.bind, List.append_assoc, hsame finish' _ (hr.append c₂)]
      exact hsame₂ finish' r' hr
    next => cases h
  settled {finish ts b r} hl h hr := by
    replace h : Reader.bind x f finish ts = .ok (b, r) := h
    rw [Reader.bind] at h
    split at h
    next a mid hfirst =>
      have hmid := hx.settled hl hfirst hr
      obtain ⟨c, rfl, hc, -⟩ := hx.done hl hfirst
      have hlength := hm _ hc
      rw [List.length_map] at hlength
      rw [List.length_append] at hl
      exact (hf a).settled (by omega) h hmid
    next => cases h
  stuck {finish ts e} hl h := by
    replace h : Reader.bind x f finish ts = .error e := h
    rw [Reader.bind] at h
    split at h
    next a mid hfirst =>
      obtain ⟨c, rfl, hc, hsame⟩ := hx.done hl hfirst
      have hlength := hm _ hc
      rw [List.length_map] at hlength
      rw [List.length_append] at hl
      obtain ⟨c₂, r, expected, rfl, he, ⟨w, hp, hw⟩, hsame₂⟩ := (hf a).stuck (by omega) h
      refine ⟨c ++ c₂, r, expected, by simp, he, ⟨w, hp, _, _, hc, hw, by simp⟩,
        fun hr finish' r' hr' => ?_⟩
      show Reader.bind x f finish' _ = _
      rw [Reader.bind, List.append_assoc, hsame finish' _ (hr'.append c₂)]
      exact hsame₂ hr finish' r' hr'
    next e' hfirst =>
      cases h
      obtain ⟨c, r, expected, hts, he, ⟨w, hpw, hw⟩, hsame⟩ := hx.stuck hl hfirst
      obtain ⟨v, hpv, hv⟩ := (hf default).inhabited
      have hmore : AllProper (w ++ v) := allProper_append.2 ⟨hpw, hpv⟩
      refine ⟨c, r, expected, hts, he, ⟨w ++ v, hmore, _, _, hw, hv, by simp⟩,
        fun hr finish' r' hr' => ?_⟩
      show Reader.bind x f finish' _ = _
      rw [Reader.bind, hsame hr finish' r' hr']

/-- The second part gets as many tokens as the first one, at most. -/
theorem andThen [Inhabited α] {f : α → Reader β} (hx : Predictive n L x)
    (hf : ∀ a, Predictive n M (f a)) : Predictive n (Then L M) (x >>= f) :=
  hx.bind hf fun _ _ => Nat.le_add_right n _

/-- Which way a reader goes depends on the next token only. -/
theorem peek {f : Token.Kind → Reader α} (hL : ∃ w, AllProper w ∧ L w)
    (hf : ∀ kind, Predictive n L (f kind)) : Predictive n L (Reader.peek f) where
  inhabited := hL
  done {finish ts a r} hl h := by
    obtain ⟨c, rfl, hc, hsame⟩ := (hf (front ts)).done hl h
    refine ⟨c, rfl, hc, fun finish' r' hr => ?_⟩
    rw [Reader.peek, (hr.append c).front]
    exact hsame finish' r' hr
  settled {finish ts a r} hl h hr := (hf (front ts)).settled hl h hr
  stuck {finish ts e} hl h := by
    obtain ⟨c, r, expected, rfl, he, hw, hsame⟩ := (hf (front ts)).stuck hl h
    refine ⟨c, r, expected, rfl, he, hw, fun hr finish' r' hr' => ?_⟩
    rw [Reader.peek, (hr'.append c).front]
    exact hsame hr finish' r' hr'

theorem take {accept : Token.Kind → Option α} {expected : Expectation} {kind : Token.Kind}
    (hend : accept .endOfInput = none) (hproper : kind.Proper) (hkind : (accept kind).isSome) :
    Predictive n (fun w => ∃ kind, (accept kind).isSome ∧ [kind] = w)
      (Reader.take accept expected) := by
  have hany : AllProper [kind] := allProper_cons.2 ⟨hproper, allProper_nil⟩
  -- An accepted kind is that of a token at the front, since the end of input is not accepted.
  have hcons : ∀ {ts a}, accept (front ts) = some a →
      ∃ t rest, ts = t :: rest ∧ accept t.kind = some a := by
    intro ts a h
    cases ts with
    | nil => rw [front, hend] at h; cases h
    | cons t rest => exact ⟨t, rest, rfl, h⟩
  refine ⟨⟨_, hany, kind, hkind, rfl⟩, fun {finish ts a r} _ h => ?_,
    fun {finish ts a r} _ h _ => ?_, fun {finish ts e} _ h => ?_⟩
  · rw [Reader.take] at h
    split at h
    next b hb =>
      obtain ⟨t, rest, rfl, ht⟩ := hcons hb
      rw [List.tail_cons] at h
      obtain hr | ⟨fault, -, -, hr⟩ := ready_cases finish rest <;> rw [hr] at h <;> cases h
      refine ⟨[t], rfl, ⟨t.kind, by rw [ht]; rfl, rfl⟩, fun finish' r' hr' => ?_⟩
      have hfront : accept (front (t :: r')) = some a := ht
      rw [List.singleton_append, Reader.take_of_eq_some hfront, List.tail_cons, hr'.ready]
      rfl
    next => cases h
  · rw [Reader.take] at h
    split at h
    next =>
      obtain hr | ⟨fault, -, -, hr⟩ := ready_cases finish ts.tail <;> rw [hr] at h <;> cases h
      exact hr
    next => cases h
  · rw [Reader.take] at h
    split at h
    next b hb =>
      obtain ⟨t, rest, rfl, ht⟩ := hcons hb
      rw [List.tail_cons] at h
      obtain hr | ⟨fault, rfl, rfl, hr⟩ := ready_cases finish rest <;> rw [hr] at h <;> cases h
      exact ⟨[t], [], expected, rfl, rfl, ⟨[], allProper_nil, t.kind, by rw [ht]; rfl, rfl⟩,
        fun hready => by cases hready⟩
    next hb =>
      cases h
      refine ⟨[], ts, expected, rfl, rfl, ⟨_, hany, kind, hkind, rfl⟩, fun _ finish' r' hr' => ?_⟩
      have hfront : accept (front ([] ++ r')) = none := by rw [List.nil_append, hr'.front, hb]
      exact Reader.take_of_eq_none hfront

theorem token {kind : Token.Kind} (hk : kind.Proper) :
    Predictive n (· = [kind]) (Reader.token kind) := by
  have hend : Token.Kind.endOfInput ≠ kind := by rintro rfl; exact hk
  refine (take (if_neg hend) hk (by rw [if_pos rfl]; rfl)).mono ?_
  rintro _ ⟨found, hfound, rfl⟩
  by_cases h : found = kind
  · rw [h]
  · rw [if_neg h] at hfound; cases hfound

theorem name : Predictive n (fun w => ∃ name, [.identifier name] = w) Reader.name := by
  have hname : (Token.Kind.identifier "x").Proper := by decide
  refine (take rfl hname rfl).mono ?_
  rintro _ ⟨found, hfound, rfl⟩
  cases found with
  | identifier name => exact ⟨name, rfl⟩
  | _ => cases hfound

theorem number : Predictive n (fun w => ∃ value, [.integer value] = w) Reader.number := by
  have hnumber : (Token.Kind.integer 0).Proper := by decide
  refine (take rfl hnumber rfl).mono ?_
  rintro _ ⟨found, hfound, rfl⟩
  cases found with
  | integer value => exact ⟨value, rfl⟩
  | _ => cases hfound

/-- Behind a part of one token, there is one token less. -/
theorem oneThen [Inhabited α] {f : α → Reader β} (hx : Predictive (n + 1) L x)
    (hone : ∀ w, L w → w.length = 1) (hf : ∀ a, Predictive n M (f a)) :
    Predictive (n + 1) (Then L M) (x >>= f) :=
  hx.bind hf fun w hw => Nat.le_of_eq (by rw [hone w hw])

/-- After a token of a kind, there is one token less. -/
theorem tokenThen {kind : Token.Kind} (hk : kind.Proper) {f : Unit → Reader β}
    (hf : Predictive n M (f ())) : Predictive (n + 1) (Then (· = [kind]) M)
      (Reader.token kind >>= f) :=
  (token hk).oneThen (fun w hw => by rw [hw]; rfl) fun _ => hf

end Predictive

end Parser

end Blockwork
