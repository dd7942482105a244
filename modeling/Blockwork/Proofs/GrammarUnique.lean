import Blockwork.Proofs.Grammar

/-!
# The grammar is unambiguous

Two derivations from the same tokens are equal. This is proved for derivations of prefixes: if both
prefixes are followed by something that can come behind them, then the derivations are equal and the
prefixes have the same length. One token is enough to see which case a derivation is.

* `Phrase.unique`, `Sentence.unique`, `Declaration.unique`: prefixes of each sort.
* `Derives.unique`: whole texts.
-/

namespace Blockwork

namespace Grammar

/-! ## Expressions -/

mutual

theorem Phrase.unique {tier : Nat} {k k' : List Token.Kind} : (d d' : Phrase tier) →
    d.word ++ k = d'.word ++ k' → Follows tier (head k) → Follows tier (head k') →
    d = d' ∧ k = k'
  | .number _, d', h, _, _ => by
    cases d' <;> simp_all [Phrase.word]
  | .variable _, d', h, hk, _ => by
    cases d' <;> simp [Phrase.word] at h
    case «variable» => simpa using h
    case call =>
      rw [h.2] at hk
      exact absurd rfl hk.1
  | .call _ arguments, d', h, _, hk' => by
    cases d' <;> simp [Phrase.word] at h
    case «variable» =>
      rw [← h.2] at hk'
      exact absurd rfl hk'.1
    case call arguments' =>
      obtain ⟨rfl, h⟩ := h
      obtain ⟨rfl, rfl⟩ := arguments.unique arguments' h
      exact ⟨rfl, rfl⟩
  | .negated operand, d', h, hk, hk' => by
    cases d' <;> simp [Phrase.word] at h
    case negated operand' =>
      obtain ⟨rfl, rfl⟩ := operand.unique operand' h hk hk'
      exact ⟨rfl, rfl⟩
  | .parenthesized inner, d', h, _, _ => by
    cases d' <;> simp [Phrase.word] at h
    case parenthesized inner' =>
      obtain ⟨rfl, h⟩ := inner.unique inner' h (.rightParen 3) (.rightParen 3)
      exact ⟨rfl, by simpa using h⟩
  | .chain first more, d', h, hk, hk' => by
    cases d' with | chain first' more'
    simp only [Phrase.word, List.append_assoc] at h
    obtain ⟨rfl, hmore⟩ := first.unique first' h (hk.operands more) (hk'.operands more')
    obtain ⟨rfl, rfl⟩ := more.unique more' hmore hk hk'
    exact ⟨rfl, rfl⟩
termination_by structural d => d

theorem Operands.unique {tier : Nat} {k k' : List Token.Kind} : (d d' : Operands tier) →
    d.word ++ k = d'.word ++ k' → Follows (tier + 1) (head k) → Follows (tier + 1) (head k') →
    d = d' ∧ k = k'
  | .done, d', h, hk, _ => by
    cases d' with
    | done => exact ⟨rfl, h⟩
    | more op ht right rest =>
      simp only [Operands.word, List.nil_append, List.cons_append] at h
      rw [h] at hk
      exact absurd rfl (hk.2 op (by omega))
  | .more op ht right rest, d', h, hk, hk' => by
    cases d' with
    | done =>
      simp only [Operands.word, List.nil_append, List.cons_append] at h
      rw [← h] at hk'
      exact absurd rfl (hk'.2 op (by omega))
    | more op' ht' right' rest' =>
      simp only [Operands.word, List.cons_append, List.append_assoc, List.cons.injEq,
        Token.Kind.symbol.injEq] at h
      obtain ⟨hop, h⟩ := h
      obtain rfl := Operator.sign_injective hop
      obtain ⟨rfl, hrest⟩ := right.unique right' h (hk.operands rest) (hk'.operands rest')
      obtain ⟨rfl, rfl⟩ := rest.unique rest' hrest hk hk'
      exact ⟨rfl, rfl⟩
termination_by structural d => d

theorem Arguments.unique {k k' : List Token.Kind} : (d d' : Arguments) →
    d.word ++ .symbol .rightParen :: k = d'.word ++ .symbol .rightParen :: k' → d = d' ∧ k = k'
  | .none, d', h => by
    cases d' with
    | none => exact ⟨rfl, by simpa [Arguments.word] using h⟩
    | some first more =>
      obtain ⟨kind, rest, hw, hne⟩ := first.word_eq_cons
      simp [Arguments.word, hw, hne.symm] at h
  | .some first more, d', h => by
    cases d' with
    | none =>
      obtain ⟨kind, rest, hw, hne⟩ := first.word_eq_cons
      simp [Arguments.word, hw, hne] at h
    | some first' more' =>
      simp only [Arguments.word, List.append_assoc] at h
      obtain ⟨rfl, hmore⟩ :=
        first.unique first' h (.moreArguments 2 more k) (.moreArguments 2 more' k')
      obtain ⟨rfl, rfl⟩ := more.unique more' hmore
      exact ⟨rfl, rfl⟩
termination_by structural d => d

theorem MoreArguments.unique {k k' : List Token.Kind} : (d d' : MoreArguments) →
    d.word ++ .symbol .rightParen :: k = d'.word ++ .symbol .rightParen :: k' → d = d' ∧ k = k'
  | .done, d', h => by
    cases d' <;> simp_all [MoreArguments.word]
  | .more argument rest, d', h => by
    cases d' <;> simp [MoreArguments.word] at h
    case more argument' rest' =>
      obtain ⟨rfl, hrest⟩ :=
        argument.unique argument' h (.moreArguments 2 rest k) (.moreArguments 2 rest' k')
      obtain ⟨rfl, rfl⟩ := rest.unique rest' hrest
      exact ⟨rfl, rfl⟩
termination_by structural d => d

end

/-! ## Statements -/

mutual

theorem Sentence.unique {k k' : List Token.Kind} : (d d' : Sentence) →
    d.word ++ k = d'.word ++ k' → Boundary (head k) → Boundary (head k') → d = d' ∧ k = k'
  | .display value, d', h, hk, hk' => by
    cases d' <;> simp [Sentence.word] at h
    case display value' =>
      obtain ⟨rfl, rfl⟩ := value.unique value' h (hk.follows 3) (hk'.follows 3)
      exact ⟨rfl, rfl⟩
  | .block body semicolon, d', h, hk, hk' => by
    cases d' <;> simp [Sentence.word] at h
    case block body' semicolon' =>
      obtain ⟨rfl, hrest⟩ := body.unique body' h .end .end
      cases semicolon <;> cases semicolon' <;> simp at hrest
      · exact ⟨rfl, hrest⟩
      · rw [hrest] at hk
        simp [head, Boundary] at hk
      · rw [← hrest] at hk'
        simp [head, Boundary] at hk'
      · exact ⟨rfl, hrest⟩
  | .branch condition withThen onTrue onFalse, d', h, _, _ => by
    cases d' <;> simp [Sentence.word] at h
    case branch condition' withThen' onTrue' onFalse' =>
      obtain ⟨rfl, hthen⟩ := condition.unique condition' h
        ((Boundary.keyword _).follows 3) ((Boundary.keyword _).follows 3)
      obtain ⟨hword, htrue⟩ := List.cons.inj hthen
      obtain rfl : withThen = withThen' := by
        cases withThen <;> cases withThen' <;> first | rfl | simp at hword
      obtain ⟨rfl, hfalse⟩ := onTrue.unique onTrue' htrue
        (.alternative onFalse k) (.alternative onFalse' k')
      obtain ⟨rfl, rfl⟩ := onFalse.unique onFalse' hfalse
      exact ⟨rfl, rfl⟩
  | .loop condition body, d', h, _, _ => by
    cases d' <;> simp [Sentence.word] at h
    case loop condition' body' =>
      obtain ⟨rfl, hdo⟩ := condition.unique condition' h
        ((Boundary.keyword _).follows 3) ((Boundary.keyword _).follows 3)
      obtain ⟨rfl, hend⟩ := body.unique body' (List.cons.inj hdo).2 .end .end
      exact ⟨rfl, (List.cons.inj hend).2⟩
  | .read name, d', h, _, _ => by
    cases d' <;> simp_all [Sentence.word]
  | .return value, d', h, hk, hk' => by
    cases d' <;> simp [Sentence.word] at h
    case «return» value' =>
      obtain ⟨rfl, rfl⟩ := value.unique value' h (hk.follows 2) (hk'.follows 2)
      exact ⟨rfl, rfl⟩
  | .assign name value, d', h, hk, hk' => by
    cases d' <;> simp [Sentence.word] at h
    case assign name' value' =>
      obtain ⟨rfl, h⟩ := h
      obtain ⟨rfl, rfl⟩ := value.unique value' h (hk.follows 2) (hk'.follows 2)
      exact ⟨rfl, rfl⟩
termination_by structural d => d

theorem Alternative.unique {k k' : List Token.Kind} : (d d' : Alternative) →
    d.word ++ .keyword .end :: k = d'.word ++ .keyword .end :: k' → d = d' ∧ k = k'
  | .absent, d', h => by
    cases d' <;> simp_all [Alternative.word]
  | .present body, d', h => by
    cases d' <;> simp [Alternative.word] at h
    case present body' =>
      obtain ⟨rfl, hend⟩ := body.unique body' h .end .end
      exact ⟨rfl, (List.cons.inj hend).2⟩
termination_by structural d => d

theorem Sentences.unique {k k' : List Token.Kind} : (d d' : Sentences) →
    d.word ++ k = d'.word ++ k' → Stops (head k) → Stops (head k') → d = d' ∧ k = k'
  | .nil, d', h, hk, _ => by
    cases d' with
    | nil => exact ⟨rfl, h⟩
    | cons s ss =>
      obtain ⟨word, hmem, rest, hw⟩ := s.word_eq_cons
      simp only [Sentences.word, hw, List.nil_append, List.cons_append] at h
      rw [h] at hk
      exact absurd rfl (hk.2 word hmem)
  | .cons s ss, d', h, hk, hk' => by
    cases d' with
    | nil =>
      obtain ⟨word, hmem, rest, hw⟩ := s.word_eq_cons
      simp only [Sentences.word, hw, List.nil_append, List.cons_append] at h
      rw [← h] at hk'
      exact absurd rfl (hk'.2 word hmem)
    | cons s' ss' =>
      simp only [Sentences.word, List.append_assoc] at h
      obtain ⟨rfl, hss⟩ := s.unique s' h (ss.boundary hk.1) (ss'.boundary hk'.1)
      obtain ⟨rfl, rfl⟩ := ss.unique ss' hss hk hk'
      exact ⟨rfl, rfl⟩
termination_by structural d => d

end

/-! ## Texts -/

theorem moreNames_unique {k k' : List Token.Kind} (ns ns' : List String)
    (h : moreNames ns ++ .symbol .rightParen :: k = moreNames ns' ++ .symbol .rightParen :: k') :
    ns = ns' ∧ k = k' := by
  induction ns generalizing ns' with
  | nil => cases ns' <;> simp_all [moreNames]
  | cons n ns ih =>
    cases ns' with
    | nil => simp [moreNames] at h
    | cons n' ns' =>
      simp only [moreNames, List.flatMap_cons, List.cons_append, List.nil_append, List.cons.injEq,
        Token.Kind.identifier.injEq, true_and] at h
      obtain ⟨rfl, h⟩ := h
      obtain ⟨rfl, rfl⟩ := ih ns' h
      exact ⟨rfl, rfl⟩

theorem names_unique {k k' : List Token.Kind} (ns ns' : List String)
    (h : names ns ++ .symbol .rightParen :: k = names ns' ++ .symbol .rightParen :: k') :
    ns = ns' ∧ k = k' := by
  cases ns <;> cases ns' <;> simp [names] at h
  case nil.nil => exact ⟨rfl, h⟩
  case cons.cons n ns n' ns' =>
    obtain ⟨rfl, h⟩ := h
    obtain ⟨rfl, rfl⟩ := moreNames_unique ns ns' h
    exact ⟨rfl, rfl⟩

theorem Declaration.unique {k k' : List Token.Kind} (d d' : Declaration)
    (h : d.word ++ k = d'.word ++ k') : d = d' ∧ k = k' := by
  obtain ⟨n, ps, body⟩ := d
  obtain ⟨n', ps', body'⟩ := d'
  simp only [Declaration.word, List.cons_append, List.append_assoc, List.cons.injEq,
    Token.Kind.identifier.injEq, true_and, List.nil_append] at h
  obtain ⟨rfl, h⟩ := h
  obtain ⟨rfl, hbody⟩ := names_unique ps ps' h
  obtain ⟨rfl, hend⟩ := body.unique body' hbody .end .end
  exact ⟨rfl, (List.cons.inj hend).2⟩

theorem Item.unique {k k' : List Token.Kind} (item item' : Item)
    (h : item.word ++ k = item'.word ++ k') (hk : Boundary (head k)) (hk' : Boundary (head k')) :
    item = item' ∧ k = k' := by
  cases item <;> cases item'
  case declaration.declaration d d' =>
    obtain ⟨rfl, rfl⟩ := d.unique d' h
    exact ⟨rfl, rfl⟩
  case statement.statement s s' =>
    obtain ⟨rfl, rfl⟩ := s.unique s' h hk hk'
    exact ⟨rfl, rfl⟩
  case declaration.statement d s =>
    obtain ⟨word, hmem, rest, hw⟩ := s.word_eq_cons
    simp only [Item.word, Declaration.word, hw, List.cons_append, List.cons.injEq,
      Token.Kind.keyword.injEq] at h
    rw [← h.1] at hmem
    exact absurd hmem (by decide)
  case statement.declaration s d =>
    obtain ⟨word, hmem, rest, hw⟩ := s.word_eq_cons
    simp only [Item.word, Declaration.word, hw, List.cons_append, List.cons.injEq,
      Token.Kind.keyword.injEq] at h
    rw [h.1] at hmem
    exact absurd hmem (by decide)

/-- A closing word begins no item. -/
theorem Closing.ne_item {k k' : List Token.Kind} {stop : Token.Kind} (h : Closing stop)
    (item : Item) : stop :: k ≠ item.word ++ k' := by
  intro he
  obtain ⟨_, _, -, hw⟩ | ⟨_, w, _, -, hmem, hw⟩ := item.word_eq_cons <;>
    simp only [hw, List.cons_append, List.cons.injEq] at he
  · rw [he.1] at h
    revert h
    simp [Closing]
  · exact h.stops.2 w hmem he.1

/-- A text has one derivation at most. -/
theorem Derives.unique {kinds : List Token.Kind} {items items' : List Item}
    (h : Derives items kinds) (h' : Derives items' kinds) : items = items' := by
  obtain ⟨stop, rest, hs, rfl⟩ := h
  obtain ⟨stop', rest', hs', h⟩ := h'
  induction items generalizing items' with
  | nil =>
    cases items' with
    | nil => rfl
    | cons item' items' =>
      simp only [word, List.flatMap_nil, List.flatMap_cons, List.nil_append,
        List.append_assoc] at h
      exact absurd h (hs.ne_item item')
  | cons item items ih =>
    cases items' with
    | nil =>
      simp only [word, List.flatMap_nil, List.flatMap_cons, List.nil_append,
        List.append_assoc] at h
      exact absurd h.symm (hs'.ne_item item)
    | cons item' items' =>
      simp only [word, List.flatMap_cons, List.append_assoc] at h
      obtain ⟨rfl, hitems⟩ := item.unique item' h (boundary_word items hs.stops.1)
        (boundary_word items' hs'.stops.1)
      rw [ih hitems]

end Grammar

end Blockwork
