import Mathlib.Data.List.Basic
import Blockwork.Proofs.GrammarUnique
import Blockwork.Proofs.Recording

/-!
# What has a derivation is accepted by the parser

In a text without faults, a derivation at the front of the tokens drives the parser: it passes over
the word of the derivation, stops behind it, and yields its tree. What comes behind the word has to
be something that can come behind it, or else the parser would go on.

* `Phrase.complete`, `Sentence.complete`, `Declaration.complete`: by recursion on derivations.
* `topLevel_complete`: whole texts.
* `parse_iff_derivation`: together with `topLevel_sound`, the grammar is what the parser accepts.
-/

namespace Blockwork

open Grammar Blockwork.Parser

variable {last : Token} {ts rest : List Token}

/-! ## Single tokens -/

namespace Parser

theorem front_eq_head (ts : List Token) : front ts = head (ts.map Token.kind) := by
  cases ts <;> rfl

/-- What comes first, by the kinds. -/
theorem Reads.front {word : List Token.Kind} (h : Reads ts word rest) :
    front ts = head (word ++ rest.map Token.kind) := by
  obtain ⟨first, rfl, rfl⟩ := h
  rw [front_eq_head, List.map_append]

theorem ok_bind {ε α β : Type} (a : α) (f : α → Except ε β) : (.ok a >>= f) = f a := rfl

theorem ready_ok (last : Token) (ts : List Token) : ready (.ok last) ts = .ok () := by
  cases ts <;> rfl

theorem eat_complete {t : Token} {kind : Token.Kind} (h : t.kind = kind) :
    eat (.ok last) kind (t :: rest) = .ok ⟨rest, Nat.lt_add_one _⟩ := by
  simp only [eat, h, if_true, ready_ok, ok_bind]
  rfl

theorem identifier_complete {t : Token} {name : String} (h : t.kind = .identifier name) :
    identifier (.ok last) (t :: rest) = .ok (name, ⟨rest, Nat.lt_add_one _⟩) := by
  simp only [identifier]
  split
  next x hx =>
    cases h.symm.trans hx
    simp only [ready_ok, ok_bind]
    rfl
  next hx => exact absurd h (hx name)

end Parser

/-! ## Expressions -/

theorem Parser.Reads.follows {more : MoreArguments} {t : Token} (tier : Nat)
    (h : Reads ts more.word (t :: rest)) (hk : t.kind = .symbol .rightParen) :
    Follows tier (Parser.front ts) := by
  rw [h.front, List.map_cons, hk]
  exact .moreArguments tier more _

namespace Grammar

mutual

theorem Phrase.complete {tier : Nat} {ts rest : List Token} : (d : Phrase tier) → tier ≤ 3 →
    Reads ts d.word rest → Follows tier (front rest) →
    ∃ h, phrase (.ok last) tier ts = .ok (d.tree, ⟨rest, h⟩)
  | .number value, _, hr, _ => by
    obtain ⟨t, mid, rfl, hk, hr⟩ := hr.of_cons
    obtain rfl := hr.of_nil
    refine ⟨by simp, ?_⟩
    rw [phrase, factor.eq_def]
    simp only [hk, ready_ok]
    rfl
  | .variable name, _, hr, hf => by
    obtain ⟨t, mid, rfl, hk, hr⟩ := hr.of_cons
    obtain rfl := hr.of_nil
    refine ⟨by simp, ?_⟩
    rw [phrase, factor.eq_def]
    simp only [hk, ready_ok, if_neg hf.1]
    rfl
  | .call name arguments, _, hr, _ => by
    obtain ⟨t, mid, rfl, hk, hr⟩ := hr.of_cons
    obtain ⟨t₁, mid₁, rfl, hk₁, hr⟩ := hr.of_cons
    obtain ⟨mid₂, hargs, hr⟩ := hr.of_append
    obtain ⟨t₃, mid₃, rfl, hk₃, hr⟩ := hr.of_cons
    obtain rfl := hr.of_nil
    obtain ⟨h₂, hc⟩ := arguments.complete hargs hk₃
    refine ⟨?_, ?_⟩
    · simp only [List.length_cons] at h₂ ⊢
      omega
    · rw [phrase, factor.eq_def]
      simp only [lift_plain, hk, ready_ok, ok_bind, front, hk₁, if_true, eat_complete hk₁, hc,
        eat_complete hk₃]
      rfl
  | .negated operand, _, hr, hf => by
    obtain ⟨t, mid, rfl, hk, hr⟩ := hr.of_cons
    obtain ⟨h₁, hc⟩ := operand.complete (by omega) hr hf
    refine ⟨?_, ?_⟩
    · simp only [List.length_cons]
      omega
    · rw [phrase] at hc
      rw [phrase, factor.eq_def]
      simp only [hk, ready_ok, ok_bind, hc]
      rfl
  | .parenthesized inner, _, hr, _ => by
    obtain ⟨t, mid, rfl, hk, hr⟩ := hr.of_cons
    obtain ⟨mid₁, hinner, hr⟩ := hr.of_append
    obtain ⟨t₂, mid₂, rfl, hk₂, hr⟩ := hr.of_cons
    obtain rfl := hr.of_nil
    obtain ⟨h₁, hc⟩ := inner.complete (by omega) hinner (by rw [front, hk₂]; exact .rightParen 3)
    refine ⟨?_, ?_⟩
    · simp only [List.length_cons] at h₁ ⊢
      omega
    · replace hc : conditional (.ok last) mid = .ok (inner.tree, ⟨t₂ :: mid₂, h₁⟩) := hc
      rw [phrase, factor.eq_def]
      simp only [hk, ready_ok, ok_bind, hc, eat_complete hk₂]
      rfl
  | .chain first more, ht, hr, hf => by
    obtain ⟨mid, hfirst, hmore⟩ := hr.of_append
    have hmid := hmore.front ▸ Follows.operands (front_eq_head rest ▸ hf) more
    obtain ⟨h₁, hc₁⟩ := first.complete (by omega) hfirst hmid
    obtain ⟨h₂, hc₂⟩ := more.complete (by omega) first.tree hmore hf
    refine ⟨by omega, ?_⟩
    rw [phrase_succ (by omega)]
    simp only [hc₁, ok_bind, hc₂]
    rfl
termination_by structural d => d

theorem Operands.complete {tier : Nat} {ts rest : List Token} : (d : Operands tier) → tier < 3 →
    (left : Expression) → Reads ts d.word rest → Follows (tier + 1) (front rest) →
    ∃ h, operands (.ok last) tier left ts = .ok (d.tree left, ⟨rest, h⟩)
  | .done, ht, left, hr, hf => by
    obtain rfl := hr.of_nil
    refine ⟨Nat.le_refl _, ?_⟩
    cases ts with
    | nil => exact operands_nil ht left
    | cons t ts =>
      rw [operands_cons ht]
      split
      next => rfl
      next op hop =>
        obtain ⟨hop, hk⟩ := (operator?_eq_some ht).1 hop
        exact absurd hk (hf.2 op (by omega))
  | .more op hop right more, ht, left, hr, hf => by
    obtain ⟨t, mid, rfl, hk, hr⟩ := hr.of_cons
    obtain ⟨mid₁, hright, hmore⟩ := hr.of_append
    have hmid := hmore.front ▸ Follows.operands (front_eq_head rest ▸ hf) more
    obtain ⟨h₁, hc₁⟩ := right.complete (by omega) hright hmid
    obtain ⟨h₂, hc₂⟩ := more.complete ht (.binary left op right.tree) hmore hf
    refine ⟨by simp only [List.length_cons]; omega, ?_⟩
    rw [operands_cons ht, (operator?_eq_some ht).2 ⟨hop, hk⟩]
    simp only [ready_ok, ok_bind, hc₁, hc₂]
    rfl
termination_by structural d => d

theorem Arguments.complete {ts rest : List Token} {t : Token} : (d : Arguments) →
    Reads ts d.word (t :: rest) → t.kind = .symbol .rightParen →
    ∃ h, arguments (.ok last) ts = .ok (d.trees, ⟨t :: rest, h⟩)
  | .none, hr, hk => by
    obtain rfl := hr.of_nil
    refine ⟨Nat.le_refl _, ?_⟩
    rw [arguments, if_pos (show front (t :: rest) = _ from hk)]
    rfl
  | .some first more, hr, hk => by
    have hfront : front ts ≠ .symbol .rightParen := by
      obtain ⟨kind, _, hw, hne⟩ := first.word_eq_cons
      rw [hr.front, Arguments.word, hw]
      exact hne
    obtain ⟨mid, hfirst, hmore⟩ := hr.of_append
    obtain ⟨h₁, hc₁⟩ := first.complete (by omega) hfirst (hmore.follows 2 hk)
    obtain ⟨h₂, hc₂⟩ := more.complete hmore hk
    refine ⟨by omega, ?_⟩
    replace hc₁ : sum (.ok last) ts = .ok (first.tree, ⟨mid, h₁⟩) := hc₁
    rw [arguments, if_neg hfront]
    simp only [hc₁, ok_bind, hc₂]
    rfl
termination_by structural d => d

theorem MoreArguments.complete {ts rest : List Token} {t : Token} : (d : MoreArguments) →
    Reads ts d.word (t :: rest) → t.kind = .symbol .rightParen →
    ∃ h, moreArguments (.ok last) ts = .ok (d.trees, ⟨t :: rest, h⟩)
  | .done, hr, hk => by
    obtain rfl := hr.of_nil
    refine ⟨Nat.le_refl _, ?_⟩
    rw [moreArguments.eq_def]
    simp only [hk, if_neg (show (.symbol .rightParen : Token.Kind) ≠ .symbol .comma by decide)]
    rfl
  | .more argument more, hr, hk => by
    obtain ⟨t₁, mid, rfl, hk₁, hr⟩ := hr.of_cons
    obtain ⟨mid₁, hfirst, hmore⟩ := hr.of_append
    obtain ⟨h₁, hc₁⟩ := argument.complete (by omega) hfirst (hmore.follows 2 hk)
    obtain ⟨h₂, hc₂⟩ := more.complete hmore hk
    refine ⟨by simp only [List.length_cons] at h₂ ⊢; omega, ?_⟩
    replace hc₁ : sum (.ok last) mid = .ok (argument.tree, ⟨mid₁, h₁⟩) := hc₁
    rw [moreArguments.eq_def]
    simp only [hk₁, if_true, ready_ok, hc₁, ok_bind, hc₂]
    rfl
termination_by structural d => d

end

/-! ## Statements -/

/-- The statements before a branch's `end` stop at `else` or at `end`. -/
theorem Alternative.front {ts rest : List Token} {t : Token} (d : Alternative)
    (hr : Reads ts d.word (t :: rest)) (hk : t.kind = .keyword .end) :
    ∃ word ∈ [Keyword.else, .end], Parser.front ts = .keyword word := by
  rw [hr.front, List.map_cons, hk]
  cases d with
  | absent => exact ⟨.end, by decide, rfl⟩
  | present body => exact ⟨.else, by decide, rfl⟩

theorem skipSemicolon_complete {ts rest : List Token} (semicolon : Bool)
    (hr : Reads ts (if semicolon then [.symbol .semicolon] else []) rest)
    (hb : Boundary (front rest)) : ∃ h, skipSemicolon (.ok last) ts = .ok ⟨rest, h⟩ := by
  cases semicolon with
  | true =>
    obtain ⟨t, mid, rfl, hk, hr⟩ := hr.of_cons
    obtain rfl := hr.of_nil
    refine ⟨by simp, ?_⟩
    rw [skipSemicolon, if_pos (show front (t :: mid) = _ from hk), eat_complete hk]
    rfl
  | false =>
    obtain rfl := hr.of_nil
    refine ⟨Nat.le_refl _, ?_⟩
    have hne : front ts ≠ .symbol .semicolon := by
      obtain ⟨word, h⟩ | h := hb <;> rw [h] <;> simp
    rw [skipSemicolon, if_neg hne]
    rfl

theorem eatThen_complete {t : Token} {rest : List Token} (withThen : Bool)
    (hk : t.kind = .keyword (if withThen then .then else .do)) :
    eatThen (.ok last) (t :: rest) = .ok ⟨rest, Nat.lt_add_one _⟩ := by
  cases withThen with
  | true =>
    replace hk : t.kind = .keyword .then := hk
    rw [eatThen, if_pos (show front (t :: rest) = _ from hk), eat_complete hk]
  | false =>
    replace hk : t.kind = .keyword .do := hk
    have hne : front (t :: rest) ≠ .keyword .then := by
      rw [show front (t :: rest) = _ from hk]
      decide
    rw [eatThen, if_neg hne, eat_complete hk]

theorem Follows.keyword {ts : List Token} {t : Token} {word : Keyword} (tier : Nat)
    (hk : t.kind = .keyword word) : Follows tier (front (t :: ts)) := by
  rw [show front (t :: ts) = _ from hk]
  exact (Boundary.keyword word).follows tier

mutual

theorem Sentence.complete {ts rest : List Token} : (d : Sentence) →
    Reads ts d.word rest → Boundary (front rest) →
    ∃ h, statement (.ok last) ts = .ok (d.tree, ⟨rest, h⟩)
  | .display value, hr, hb => by
    obtain ⟨t, mid, rfl, hk, hr⟩ := hr.of_cons
    obtain ⟨h₁, hc⟩ := value.complete (by omega) hr (hb.follows 3)
    refine ⟨by simp only [List.length_cons]; omega, ?_⟩
    replace hc : conditional (.ok last) mid = .ok (value.tree, ⟨rest, h₁⟩) := hc
    rw [statement.eq_def]
    simp only [hk, ready_ok, ok_bind, hc]
    rfl
  | .block body semicolon, hr, hb => by
    obtain ⟨t, mid, rfl, hk, hr⟩ := hr.of_cons
    obtain ⟨mid₁, hbody, hr⟩ := hr.of_append
    obtain ⟨t₂, mid₂, rfl, hk₂, hr⟩ := hr.of_cons
    obtain ⟨h₁, hc₁⟩ := body.complete [.end] (by decide) hbody ⟨.end, by simp, hk₂⟩
    obtain ⟨h₃, hc₃⟩ : ∃ h, skipSemicolon (.ok last) mid₂ = .ok ⟨rest, h⟩ :=
      skipSemicolon_complete semicolon hr hb
    refine ⟨by simp only [List.length_cons] at h₁ ⊢; omega, ?_⟩
    rw [statement.eq_def]
    simp only [lift_plain, hk, ready_ok, ok_bind, hc₁, eat_complete hk₂, hc₃]
    rfl
  | .branch condition withThen onTrue onFalse, hr, _ => by
    obtain ⟨t, mid, rfl, hk, hr⟩ := hr.of_cons
    obtain ⟨mid₁, hcondition, hr⟩ := hr.of_append
    obtain ⟨t₂, mid₂, rfl, hk₂, hr⟩ := hr.of_cons
    obtain ⟨mid₃, htrue, hr⟩ := hr.of_append
    obtain ⟨mid₄, hfalse, hr⟩ := hr.of_append
    obtain ⟨t₅, mid₅, rfl, hk₅, hr⟩ := hr.of_cons
    obtain rfl := hr.of_nil
    obtain ⟨h₁, hc₁⟩ := condition.complete (by omega) hcondition (.keyword 3 hk₂)
    obtain ⟨h₃, hc₃⟩ :=
      onTrue.complete [.else, .end] (by decide) htrue (onFalse.front hfalse hk₅)
    obtain ⟨h₄, hc₄⟩ := onFalse.complete hfalse hk₅
    refine ⟨by simp only [List.length_cons] at h₁ h₃ h₄ ⊢; omega, ?_⟩
    replace hc₁ : conditional (.ok last) mid = .ok (condition.tree, ⟨t₂ :: mid₂, h₁⟩) := hc₁
    rw [statement.eq_def]
    simp only [lift_plain, hk, ready_ok, ok_bind, hc₁, eatThen_complete withThen hk₂, hc₃, hc₄,
      eat_complete hk₅]
    rfl
  | .loop condition body, hr, _ => by
    obtain ⟨t, mid, rfl, hk, hr⟩ := hr.of_cons
    obtain ⟨mid₁, hcondition, hr⟩ := hr.of_append
    obtain ⟨t₂, mid₂, rfl, hk₂, hr⟩ := hr.of_cons
    obtain ⟨mid₃, hbody, hr⟩ := hr.of_append
    obtain ⟨t₄, mid₄, rfl, hk₄, hr⟩ := hr.of_cons
    obtain rfl := hr.of_nil
    obtain ⟨h₁, hc₁⟩ := condition.complete (by omega) hcondition (.keyword 3 hk₂)
    obtain ⟨h₃, hc₃⟩ := body.complete [.end] (by decide) hbody ⟨.end, by simp, hk₄⟩
    refine ⟨by simp only [List.length_cons] at h₁ h₃ ⊢; omega, ?_⟩
    replace hc₁ : conditional (.ok last) mid = .ok (condition.tree, ⟨t₂ :: mid₂, h₁⟩) := hc₁
    rw [statement.eq_def]
    simp only [lift_plain, hk, ready_ok, ok_bind, hc₁, eat_complete hk₂, hc₃, eat_complete hk₄]
    rfl
  | .read name, hr, _ => by
    obtain ⟨t, mid, rfl, hk, hr⟩ := hr.of_cons
    obtain ⟨t₁, mid₁, rfl, hk₁, hr⟩ := hr.of_cons
    obtain rfl := hr.of_nil
    refine ⟨by simp only [List.length_cons]; omega, ?_⟩
    rw [statement.eq_def]
    simp only [hk, ready_ok, identifier_complete hk₁]
    rfl
  | .return value, hr, hb => by
    obtain ⟨t, mid, rfl, hk, hr⟩ := hr.of_cons
    obtain ⟨h₁, hc⟩ := value.complete (by omega) hr (hb.follows 2)
    refine ⟨by simp only [List.length_cons]; omega, ?_⟩
    replace hc : sum (.ok last) mid = .ok (value.tree, ⟨rest, h₁⟩) := hc
    rw [statement.eq_def]
    simp only [hk, ready_ok, ok_bind, hc]
    rfl
  | .assign name value, hr, hb => by
    obtain ⟨t, mid, rfl, hk, hr⟩ := hr.of_cons
    obtain ⟨t₁, mid₁, rfl, hk₁, hr⟩ := hr.of_cons
    obtain ⟨t₂, mid₂, rfl, hk₂, hr⟩ := hr.of_cons
    obtain ⟨h₃, hc⟩ := value.complete (by omega) hr (hb.follows 2)
    refine ⟨by simp only [List.length_cons]; omega, ?_⟩
    replace hc : sum (.ok last) mid₂ = .ok (value.tree, ⟨rest, h₃⟩) := hc
    rw [statement.eq_def]
    simp only [lift_plain, hk, eat_complete hk, identifier_complete hk₁, eat_complete hk₂, ok_bind,
      hc]
    rfl
termination_by structural d => d

theorem Alternative.complete {ts rest : List Token} {t : Token} : (d : Alternative) →
    Reads ts d.word (t :: rest) → t.kind = .keyword .end →
    ∃ h, alternative (.ok last) ts = .ok (d.trees, ⟨t :: rest, h⟩)
  | .absent, hr, hk => by
    obtain rfl := hr.of_nil
    refine ⟨Nat.le_refl _, ?_⟩
    have hne : front (t :: rest) ≠ .keyword .else := by
      rw [show front (t :: rest) = _ from hk]
      decide
    rw [alternative, if_neg hne]
    rfl
  | .present body, hr, hk => by
    obtain ⟨t₁, mid, rfl, hk₁, hr⟩ := hr.of_cons
    obtain ⟨h₂, hc⟩ := body.complete [.end] (by decide) hr ⟨.end, by simp, hk⟩
    refine ⟨by simp only [List.length_cons] at h₂ ⊢; omega, ?_⟩
    rw [alternative, if_pos (show front (t₁ :: mid) = _ from hk₁)]
    simp only [lift_plain, eat_complete hk₁, ok_bind, hc]
    rfl
termination_by structural d => d

theorem Sentences.complete {ts rest : List Token} (stops : List Keyword) : (d : Sentences) →
    (∀ word ∈ stops, word ∉ sentenceWords) → Reads ts d.word rest →
    (∃ word ∈ stops, front rest = .keyword word) →
    ∃ h, statementsUntil (.ok last) stops ts = .ok (d.trees, ⟨rest, h⟩)
  | .nil, _, hr, ⟨word, hw, hf⟩ => by
    obtain rfl := hr.of_nil
    refine ⟨Nat.le_refl _, ?_⟩
    have hstop : (stops.any fun word => front ts = .keyword word) = true :=
      List.any_eq_true.2 ⟨word, hw, decide_eq_true hf⟩
    rw [statementsUntil, if_pos hstop]
    rfl
  | .cons first more, hstops, hr, ⟨word, hw, hf⟩ => by
    have hgo : ¬ (stops.any fun word => front ts = .keyword word) = true := by
      obtain ⟨w, hmem, _, hfirst⟩ := first.word_eq_cons
      rw [hr.front, Sentences.word, hfirst, List.any_eq_true]
      rintro ⟨x, hx, he⟩
      obtain rfl : w = x := by simpa [head] using he
      exact hstops w hx hmem
    obtain ⟨mid, hfirst, hmore⟩ := hr.of_append
    have hb : Boundary (head (rest.map Token.kind)) := by
      rw [← front_eq_head, hf]
      exact .keyword word
    obtain ⟨h₁, hc₁⟩ := first.complete hfirst (hmore.front ▸ more.boundary hb)
    obtain ⟨h₂, hc₂⟩ := more.complete stops hstops hmore ⟨word, hw, hf⟩
    refine ⟨by omega, ?_⟩
    rw [statementsUntil, if_neg hgo]
    simp only [hc₁, ok_bind, hc₂]
    rfl
termination_by structural d => d

end

/-! ## Texts -/

theorem moreIdentifiers_complete {t : Token} (hk : t.kind = .symbol .rightParen)
    (ns : List String) {ts : List Token} (hr : Reads ts (moreNames ns) (t :: rest)) :
    ∃ h, moreIdentifiers (.ok last) ts = .ok (ns, ⟨t :: rest, h⟩) := by
  induction ns generalizing ts with
  | nil =>
    obtain rfl := hr.of_nil
    refine ⟨Nat.le_refl _, ?_⟩
    rw [moreIdentifiers.eq_def]
    simp only [hk, if_neg (show (.symbol .rightParen : Token.Kind) ≠ .symbol .comma by decide)]
    rfl
  | cons n ns ih =>
    obtain ⟨t₁, mid, rfl, hk₁, hr⟩ := hr.of_cons
    obtain ⟨t₂, mid₂, rfl, hk₂, hr⟩ := hr.of_cons
    obtain ⟨h₃, hc⟩ := ih hr
    refine ⟨by simp only [List.length_cons] at h₃ ⊢; omega, ?_⟩
    rw [moreIdentifiers.eq_def]
    simp only [hk₁, if_true, ready_ok, identifier_complete hk₂, ok_bind, hc]
    rfl

theorem parameters_complete {t : Token} (hk : t.kind = .symbol .rightParen)
    (ns : List String) {ts : List Token} (hr : Reads ts (names ns) (t :: rest)) :
    ∃ h, parameters (.ok last) ts = .ok (ns, ⟨t :: rest, h⟩) := by
  cases ns with
  | nil =>
    obtain rfl := hr.of_nil
    refine ⟨Nat.le_refl _, ?_⟩
    rw [parameters, if_pos (show front (t :: rest) = _ from hk)]
    rfl
  | cons n ns =>
    obtain ⟨t₁, mid, rfl, hk₁, hr⟩ := hr.of_cons
    obtain ⟨h₂, hc⟩ : ∃ h, moreIdentifiers (.ok last) mid = .ok (ns, ⟨t :: rest, h⟩) :=
      moreIdentifiers_complete hk ns hr
    have hne : front (t₁ :: mid) ≠ .symbol .rightParen := by
      rw [show front (t₁ :: mid) = _ from hk₁]
      simp
    refine ⟨by simp only [List.length_cons] at h₂ ⊢; omega, ?_⟩
    rw [parameters, if_neg hne]
    simp only [identifier_complete hk₁, ok_bind, hc]
    rfl

theorem Declaration.complete (d : Declaration) (hr : Reads ts d.word rest) :
    ∃ h, declaration (.ok last) ts = .ok (d.tree, ⟨rest, h⟩) := by
  obtain ⟨t₁, mid₁, rfl, hk₁, hr⟩ := hr.of_cons
  obtain ⟨t₂, mid₂, rfl, hk₂, hr⟩ := hr.of_cons
  obtain ⟨t₃, mid₃, rfl, hk₃, hr⟩ := hr.of_cons
  obtain ⟨mid₄, hnames, hr⟩ := hr.of_append
  obtain ⟨t₅, mid₅, rfl, hk₅, hr⟩ := hr.of_cons
  obtain ⟨mid₆, hbody, hr⟩ := hr.of_append
  obtain ⟨t₇, mid₇, rfl, hk₇, hr⟩ := hr.of_cons
  obtain rfl := hr.of_nil
  obtain ⟨h₄, hc₄⟩ : ∃ h, Parser.parameters (.ok last) mid₃ = .ok (d.parameters, ⟨t₅ :: mid₅, h⟩) :=
    parameters_complete hk₅ d.parameters hnames
  obtain ⟨h₆, hc₆⟩ : ∃ h, statementsUntil (.ok last) [.end] mid₅ =
      .ok (d.body.trees, ⟨t₇ :: mid₇, h⟩) :=
    d.body.complete [.end] (by decide) hbody ⟨.end, by simp, hk₇⟩
  refine ⟨by simp only [List.length_cons] at h₄ h₆ ⊢; omega, ?_⟩
  rw [declaration, eat_complete hk₁]
  simp only [lift_plain, within_plain, identifier_complete hk₂, eat_complete hk₃, hc₄,
    eat_complete hk₅, ok_bind, hc₆, eat_complete hk₇]
  rfl

/-- A derived text in front of a closing word is accepted, or else the one thing that is wrong with
it is that two of its procedures, or one of them and one declared before, have the same name. -/
theorem topLevel_derived (items : List Item) {seen : List String} {ts rest : List Token}
    (hr : Reads ts (word items) rest) (hclose : Closing (front rest)) :
    topLevel (.ok last) seen ts = .ok (tree items) ∨
      (∃ name, topLevel (.ok last) seen ts = .error (.duplicateProcedure name)) ∧
        ¬ (seen ++ declared items).Nodup := by
  induction items generalizing seen ts with
  | nil =>
    obtain rfl := hr.of_nil
    left
    rw [topLevel.eq_def]
    obtain h | h | h := hclose <;> simp only [h, ready_ok] <;> rfl
  | cons item items ih =>
    obtain ⟨mid, hitem, hitems⟩ := Reads.of_append (b := word items) hr
    cases item with
    | declaration d =>
      have hk : front ts = .keyword .procedure := by rw [hitem.front]; rfl
      obtain ⟨h₁, hc⟩ : ∃ h, declaration (.ok last) ts = .ok (d.tree, ⟨mid, h⟩) :=
        d.complete hitem
      rw [topLevel.eq_def]
      simp only [hk, hc, ok_bind]
      by_cases hseen : d.name ∈ seen
      · right
        have hcontains : seen.contains d.tree.name = true := by
          rw [List.contains_eq_mem, decide_eq_true_eq]
          exact hseen
        refine ⟨⟨d.tree.name, by rw [if_pos hcontains]; rfl⟩, fun hn => ?_⟩
        exact (List.nodup_append.1 hn).2.2 _ hseen _ List.mem_cons_self rfl
      · have hnew : ¬ seen.contains d.tree.name = true := by
          rw [List.contains_eq_mem, decide_eq_true_eq]
          exact hseen
        rw [if_neg hnew]
        obtain hrest | ⟨⟨name, hrest⟩, hn⟩ := @ih (seen ++ [d.tree.name]) mid hitems
        · left
          rw [hrest]
          rfl
        · right
          refine ⟨⟨name, by rw [hrest]; rfl⟩, ?_⟩
          rwa [List.append_assoc] at hn
    | statement s =>
      have hb : Boundary (front mid) := by
        refine hitems.front ▸ boundary_word items ?_
        rw [← front_eq_head]
        exact hclose.stops.1
      obtain ⟨h₁, hc⟩ : ∃ h, statement (.ok last) ts = .ok (s.tree, ⟨mid, h⟩) :=
        s.complete hitem hb
      obtain ⟨w, hmem, _, hw⟩ := s.word_eq_cons
      have hk : front ts = .keyword w := by rw [hitem.front, Item.word, hw]; rfl
      have hgo : topLevel (.ok last) seen ts = (s.tree :: ·) <$> topLevel (.ok last) seen mid := by
        rw [topLevel.eq_def]
        simp only [sentenceWords, List.mem_cons, List.not_mem_nil, or_false] at hmem
        rcases hmem with rfl | rfl | rfl | rfl | rfl | rfl | rfl <;>
        · simp only [hk, hc, ok_bind]
          rfl
      rw [hgo]
      obtain hrest | ⟨⟨name, hrest⟩, hn⟩ := @ih seen mid hitems
      · left
        rw [hrest]
        rfl
      · right
        exact ⟨⟨name, by rw [hrest]; rfl⟩, hn⟩

/-- A derived text in front of a closing word is accepted if its procedures have different names,
none of which was declared before. -/
theorem topLevel_complete (items : List Item) {seen : List String} {ts rest : List Token}
    (hr : Reads ts (word items) rest) (hclose : Closing (front rest))
    (hn : (seen ++ declared items).Nodup) :
    topLevel (.ok last) seen ts = .ok (tree items) :=
  (topLevel_derived items hr hclose).resolve_right fun h => h.2 hn

end Grammar

/-! ## Whole texts -/

theorem Lexer.kind_of_finish {l : Lexer} {t : Token} (hl : l.ended = false)
    (h : l.scan.finish = .ok t) : t.kind = .endOfInput := by
  fun_induction Lexer.scan l with
  | case1 => cases h
  | case2 l token hnext hended later ih => exact ih hended h
  | case3 l token hnext hended =>
    cases h
    rw [Bool.not_eq_false] at hended
    simp only [Lexer.next] at hnext hended
    split at hended
    next hrest =>
      simp only [hrest] at hnext
      cases hnext
      rfl
    next => simp [hl] at hended

/-- The tokens of a text are those that the parser gets, and the end of input. -/
theorem tokenize_eq_ok {source : String} {tokens : List Token} (h : tokenize source = .ok tokens) :
    ∃ last, (Lexer.ofString source).scan.finish = .ok last ∧ last.kind = .endOfInput ∧
      tokens = (Lexer.ofString source).scan.tokens ++ [last] := by
  simp only [tokenize] at h
  cases hf : (Lexer.ofString source).scan.finish with
  | error e => rw [hf] at h; cases h
  | ok last =>
    rw [hf] at h
    cases h
    exact ⟨last, rfl, Lexer.kind_of_finish rfl hf, rfl⟩

/-- The parser's tokens and their closing word, from a derivation of all tokens of the text. -/
theorem Grammar.Derives.reads {items : List Item} (hlast : last.kind = .endOfInput)
    (h : Derives items ((ts ++ [last]).map Token.kind)) :
    ∃ rest, Reads ts (word items) rest ∧ Closing (front rest) := by
  obtain ⟨stop, rest, hs, h⟩ := h
  have hlength := congrArg List.length h
  simp only [List.map_append, List.length_append, List.length_map, List.length_cons,
    List.length_nil] at hlength
  have htake : (ts.take (word items).length).map Token.kind = word items := by
    have := congrArg (List.take (word items).length) h
    rwa [List.take_left, List.map_append, List.take_append_of_le_length (by simp; omega),
      ← List.map_take] at this
  have hdrop : (ts.drop (word items).length).map Token.kind ++ [.endOfInput] = stop :: rest := by
    have := congrArg (List.drop (word items).length) h
    rwa [List.drop_left, List.map_append, List.drop_append_of_le_length (by simp; omega),
      ← List.map_drop, List.map_singleton, hlast] at this
  refine ⟨ts.drop (word items).length, ⟨_, (List.take_append_drop _ ts).symm, htake⟩, ?_⟩
  cases hd : ts.drop (word items).length with
  | nil => exact .inr (.inr rfl)
  | cons t mid =>
    rw [hd] at hdrop
    cases hdrop
    exact hs

theorem parseTree_eq_ok {source : String} {tokens : List Token} (h : tokenize source = .ok tokens)
    (ss : List Statement) :
    parseTree source = .ok ss ↔ ∃ items, Derives items (tokens.map Token.kind) ∧
      (declared items).Nodup ∧ ss = tree items := by
  obtain ⟨last, hf, hlast, rfl⟩ := tokenize_eq_ok h
  simp only [parseTree_eq, hf, ready_ok, ok_bind]
  generalize (Lexer.ofString source).scan.tokens = ts
  constructor
  · intro h
    obtain ⟨items, rest, ⟨first, rfl, hw⟩, hc, rfl, hn⟩ := topLevel_sound h List.nodup_nil
    refine ⟨items, ?_, hn, rfl⟩
    cases rest with
    | nil => exact ⟨_, [], hc, by simp [hw, front, hlast]⟩
    | cons t rest => exact ⟨_, rest.map Token.kind ++ [last.kind], hc, by simp [hw, front]⟩
  · rintro ⟨items, hd, hn, rfl⟩
    obtain ⟨rest, hr, hc⟩ := hd.reads hlast
    exact topLevel_complete items hr hc hn

/-- The parser accepts exactly its grammar. If a text can be split into tokens, then it is accepted
if and only if some prefix of them, in front of a closing word, has a derivation in which no two
procedures have the same name. The tree is that of the derivation, and there is no other derivation
of the text. -/
theorem parse_iff_derivation {source : String} {tokens : List Token}
    (h : tokenize source = .ok tokens) :
    (∀ p, Program.parse source = .ok p ↔ ∃ items, Derives items (tokens.map Token.kind) ∧
      (declared items).Nodup ∧ p = ⟨tree items, .ofTree (tree items)⟩) ∧
    ∀ items items', Derives items (tokens.map Token.kind) →
      Derives items' (tokens.map Token.kind) → items = items' := by
  refine ⟨fun p => ?_, fun items items' => Derives.unique⟩
  constructor
  · intro hp
    rw [Program.parse_eq] at hp
    cases ht : parseTree source with
    | error e => rw [ht] at hp; cases hp
    | ok ss =>
      rw [ht] at hp
      cases hp
      obtain ⟨items, hd, hn, rfl⟩ := (parseTree_eq_ok h ss).1 ht
      exact ⟨items, hd, hn, rfl⟩
  · rintro ⟨items, hd, hn, rfl⟩
    rw [Program.parse_eq, (parseTree_eq_ok h _).2 ⟨items, hd, hn, rfl⟩]
    rfl

/-- A text with two tokens behind its closing word. -/
def closedText : String :=
  "procedure p(a) assign p = a * 2 end if p(1) = 2 do display -3 - 4 - 5 end end assign"

def closedTree : List Statement :=
  [.procedure "p" ["a"] [.assign "p" (.binary (.variable "a") .multiply (.number 2))],
    .branch (.binary (.call "p" [.number 1]) .equal (.number 2))
      [.display (.binary (.binary (.binary (.number 3) .multiply (.number (-1))) .subtract
        (.number 4)) .subtract (.number 5))] []]

theorem parse_iff_derivation_closedText :
    ∃ tokens items, tokenize closedText = .ok tokens ∧ Derives items (tokens.map Token.kind) ∧
      (declared items).Nodup ∧ tree items = closedTree := by
  have hp : Program.parse closedText = .ok ⟨closedTree, .ofTree closedTree⟩ := by decide +kernel
  have hsome : (tokenize closedText).toOption.isSome := by decide +kernel
  obtain ⟨tokens, ht⟩ : ∃ tokens, tokenize closedText = .ok tokens := by
    cases ht : tokenize closedText with
    | ok tokens => exact ⟨tokens, rfl⟩
    | error e => rw [ht] at hsome; cases hsome
  obtain ⟨items, hd, hn, h⟩ := ((parse_iff_derivation ht).1 _).1 hp
  exact ⟨tokens, items, ht, hd, hn, (Program.mk.inj h).1.symm⟩

end Blockwork
