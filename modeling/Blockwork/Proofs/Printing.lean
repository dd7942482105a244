import Blockwork.Tree.Names
import Blockwork.Proofs.Grammar
import Blockwork.Proofs.Spelling

/-!
# Printing trees

A tree is printed with all its keywords, and with parentheses around every operator. The right
operand `-1` of a product stands for a minus sign in front of the left one. Where a tree is well
formed, there is a derivation with what was printed as its word, and with the tree as its tree.

* `Expression.WellFormed`, `Statement.WellFormed`, `WellFormedTree`: the trees that have a text.
* `Expression.kinds`, `Statement.kinds`, `printTree`: the printer.
* `IsPhrase`: the words for an expression, tier by tier.
* `Statement.items_kinds`: the derivation of a printed tree.
-/

namespace Blockwork

open Grammar

/-! ## Well-formed trees -/

mutual

/-- The names are names, and no number is negative but a `-1` that negates. -/
def Expression.WellFormed : Expression → Prop
  | .number value => 0 ≤ value
  | .variable name => IsName name
  | .binary left op right =>
    left.WellFormed ∧ (right.WellFormed ∨ op = .multiply ∧ right = .number (-1))
  | .call name arguments => IsName name ∧ Expression.ListWellFormed arguments

def Expression.ListWellFormed : List Expression → Prop
  | [] => True
  | e :: es => e.WellFormed ∧ Expression.ListWellFormed es

end

mutual

/-- The names are names, the expressions are well formed, and no procedure is declared. -/
def Statement.WellFormed : Statement → Prop
  | .assign name value => IsName name ∧ value.WellFormed
  | .block body => Statement.ListWellFormed body
  | .branch condition onTrue onFalse =>
    condition.WellFormed ∧ Statement.ListWellFormed onTrue ∧ Statement.ListWellFormed onFalse
  | .loop condition body => condition.WellFormed ∧ Statement.ListWellFormed body
  | .read name => IsName name
  | .display value => value.WellFormed
  | .return value => value.WellFormed
  | .procedure .. => False

def Statement.ListWellFormed : List Statement → Prop
  | [] => True
  | s :: ss => s.WellFormed ∧ Statement.ListWellFormed ss

end

/-- An outermost statement may declare a procedure. -/
def Statement.OuterWellFormed : Statement → Prop
  | .procedure name parameters body =>
    IsName name ∧ (∀ parameter ∈ parameters, IsName parameter) ∧ Statement.ListWellFormed body
  | s => s.WellFormed

/-- The trees that have a text: the procedures have different names, too. -/
def WellFormedTree (tree : List Statement) : Prop :=
  (∀ s ∈ tree, s.OuterWellFormed) ∧
    ((tree.filterMap Statement.procedure?).map Procedure.name).Nodup

mutual

def Expression.decideWellFormed : (e : Expression) → Decidable e.WellFormed
  | .number value => inferInstanceAs (Decidable (0 ≤ value))
  | .variable name => inferInstanceAs (Decidable (IsName name))
  | .binary left _ right =>
    have := left.decideWellFormed
    have := right.decideWellFormed
    inferInstanceAs (Decidable (_ ∧ (_ ∨ _ ∧ _)))
  | .call _ arguments =>
    have := Expression.decideListWellFormed arguments
    inferInstanceAs (Decidable (_ ∧ _))

def Expression.decideListWellFormed : (es : List Expression) →
    Decidable (Expression.ListWellFormed es)
  | [] => .isTrue trivial
  | e :: es =>
    have := e.decideWellFormed
    have := Expression.decideListWellFormed es
    inferInstanceAs (Decidable (_ ∧ _))

end

instance (e : Expression) : Decidable e.WellFormed := e.decideWellFormed

mutual

def Statement.decideWellFormed : (s : Statement) → Decidable s.WellFormed
  | .assign name value => inferInstanceAs (Decidable (IsName name ∧ value.WellFormed))
  | .block body => Statement.decideListWellFormed body
  | .branch condition onTrue onFalse =>
    have := Statement.decideListWellFormed onTrue
    have := Statement.decideListWellFormed onFalse
    inferInstanceAs (Decidable (condition.WellFormed ∧ _ ∧ _))
  | .loop condition body =>
    have := Statement.decideListWellFormed body
    inferInstanceAs (Decidable (condition.WellFormed ∧ _))
  | .read name => inferInstanceAs (Decidable (IsName name))
  | .display value => inferInstanceAs (Decidable value.WellFormed)
  | .return value => inferInstanceAs (Decidable value.WellFormed)
  | .procedure .. => .isFalse id

def Statement.decideListWellFormed : (ss : List Statement) →
    Decidable (Statement.ListWellFormed ss)
  | [] => .isTrue trivial
  | s :: ss =>
    have := s.decideWellFormed
    have := Statement.decideListWellFormed ss
    inferInstanceAs (Decidable (_ ∧ _))

end

instance (s : Statement) : Decidable s.WellFormed := s.decideWellFormed

instance (ss : List Statement) : Decidable (Statement.ListWellFormed ss) :=
  Statement.decideListWellFormed ss

instance : (s : Statement) → Decidable s.OuterWellFormed
  | .assign name value => inferInstanceAs (Decidable (Statement.assign name value).WellFormed)
  | .block body => inferInstanceAs (Decidable (Statement.block body).WellFormed)
  | .branch condition onTrue onFalse =>
    inferInstanceAs (Decidable (Statement.branch condition onTrue onFalse).WellFormed)
  | .loop condition body => inferInstanceAs (Decidable (Statement.loop condition body).WellFormed)
  | .read name => inferInstanceAs (Decidable (Statement.read name).WellFormed)
  | .display value => inferInstanceAs (Decidable (Statement.display value).WellFormed)
  | .return value => inferInstanceAs (Decidable (Statement.return value).WellFormed)
  | .procedure name parameters body =>
    inferInstanceAs (Decidable (IsName name ∧ (∀ parameter ∈ parameters, IsName parameter) ∧
      Statement.ListWellFormed body))

instance (tree : List Statement) : Decidable (WellFormedTree tree) :=
  inferInstanceAs (Decidable (_ ∧ _))

/-! ## The printer -/

mutual

/-- The token kinds of an expression, in parentheses if it has an operator. -/
def Expression.kinds : Expression → List Token.Kind
  | .number value => [.integer value]
  | .variable name => [.identifier name]
  | .binary left op right =>
    if op = .multiply ∧ right = .number (-1) then
      .symbol .minus :: .symbol .leftParen :: (left.kinds ++ [.symbol .rightParen])
    else
      .symbol .leftParen ::
        (left.kinds ++ .symbol op.sign :: (right.kinds ++ [.symbol .rightParen]))
  | .call name arguments =>
    .identifier name :: .symbol .leftParen ::
      (Expression.listKinds arguments ++ [.symbol .rightParen])

/-- The token kinds of some expressions with commas between them. -/
def Expression.listKinds : List Expression → List Token.Kind
  | [] => []
  | e :: es => e.kinds ++ Expression.moreKinds es

/-- The token kinds of some expressions with a comma before each of them. -/
def Expression.moreKinds : List Expression → List Token.Kind
  | [] => []
  | e :: es => .symbol .comma :: (e.kinds ++ Expression.moreKinds es)

end

mutual

/-- The token kinds of a statement. -/
def Statement.kinds : Statement → List Token.Kind
  | .assign name value =>
    .keyword .assign :: .identifier name :: .symbol .equal :: value.kinds
  | .block body => .keyword .begin :: (Statement.listKinds body ++ [.keyword .end])
  | .branch condition onTrue onFalse =>
    .keyword .if :: (condition.kinds ++ .keyword .then :: (Statement.listKinds onTrue ++
      .keyword .else :: (Statement.listKinds onFalse ++ [.keyword .end])))
  | .loop condition body =>
    .keyword .while :: (condition.kinds ++ .keyword .do ::
      (Statement.listKinds body ++ [.keyword .end]))
  | .read name => [.keyword .read, .identifier name]
  | .display value => .keyword .display :: value.kinds
  | .return value => .keyword .return :: value.kinds
  | .procedure name parameters body =>
    .keyword .procedure :: .identifier name :: .symbol .leftParen :: (names parameters ++
      .symbol .rightParen :: (Statement.listKinds body ++ [.keyword .end]))

/-- The token kinds of some statements, one after the other. -/
def Statement.listKinds : List Statement → List Token.Kind
  | [] => []
  | s :: ss => s.kinds ++ Statement.listKinds ss

end

/-- The text of a tree. -/
def printTree (tree : List Statement) : String :=
  String.ofList (spell (Statement.listKinds tree))

/-! ## What is printed can be scanned -/

theorem allProper_moreNames {ns : List String} :
    AllProper (moreNames ns) ↔ ∀ n ∈ ns, IsName n := by
  induction ns with
  | nil => simp [moreNames]
  | cons n ns ih =>
    have hcons : moreNames (n :: ns) = .symbol .comma :: .identifier n :: moreNames ns := rfl
    simp [hcons, ih]

theorem allProper_names {ns : List String} : AllProper (names ns) ↔ ∀ n ∈ ns, IsName n := by
  cases ns with
  | nil => simp [names]
  | cons n ns => simp [names, allProper_moreNames]

mutual

theorem Expression.WellFormed.proper : {e : Expression} → e.WellFormed → AllProper e.kinds
  | .number _, h => allProper_cons.2 ⟨h, allProper_nil⟩
  | .variable _, h => allProper_cons.2 ⟨h, allProper_nil⟩
  | .binary left op right, h => by
    have hleft : AllProper left.kinds := Expression.WellFormed.proper h.1
    rw [Expression.kinds]
    split
    next => simpa using hleft
    next hsign =>
      have hright : AllProper right.kinds :=
        Expression.WellFormed.proper (h.2.resolve_right hsign)
      simpa using ⟨hleft, hright⟩
  | .call _ _, h => by
    simpa [Expression.kinds] using ⟨h.1, Expression.ListWellFormed.proper h.2⟩

theorem Expression.ListWellFormed.proper : {es : List Expression} → Expression.ListWellFormed es →
    AllProper (Expression.listKinds es)
  | [], _ => allProper_nil
  | _ :: _, h => allProper_append.2
    ⟨Expression.WellFormed.proper h.1, Expression.ListWellFormed.proper_more h.2⟩

theorem Expression.ListWellFormed.proper_more : {es : List Expression} →
    Expression.ListWellFormed es → AllProper (Expression.moreKinds es)
  | [], _ => allProper_nil
  | _ :: _, h => by
    simpa [Expression.moreKinds] using
      ⟨Expression.WellFormed.proper h.1, Expression.ListWellFormed.proper_more h.2⟩

end

mutual

theorem Statement.WellFormed.proper : {s : Statement} → s.WellFormed → AllProper s.kinds
  | .assign _ _, h => by simpa [Statement.kinds] using ⟨h.1, Expression.WellFormed.proper h.2⟩
  | .block _, h => by simpa [Statement.kinds] using Statement.ListWellFormed.proper h
  | .branch _ _ _, h => by
    simpa [Statement.kinds] using ⟨Expression.WellFormed.proper h.1,
      Statement.ListWellFormed.proper h.2.1, Statement.ListWellFormed.proper h.2.2⟩
  | .loop _ _, h => by
    simpa [Statement.kinds] using
      ⟨Expression.WellFormed.proper h.1, Statement.ListWellFormed.proper h.2⟩
  | .read _, h => allProper_cons.2 ⟨trivial, allProper_cons.2 ⟨h, allProper_nil⟩⟩
  | .display _, h => by simpa [Statement.kinds] using Expression.WellFormed.proper h
  | .return _, h => by simpa [Statement.kinds] using Expression.WellFormed.proper h

theorem Statement.ListWellFormed.proper : {ss : List Statement} → Statement.ListWellFormed ss →
    AllProper (Statement.listKinds ss)
  | [], _ => allProper_nil
  | _ :: _, h => allProper_append.2
    ⟨Statement.WellFormed.proper h.1, Statement.ListWellFormed.proper h.2⟩

end

theorem Statement.OuterWellFormed.proper {s : Statement} (h : s.OuterWellFormed) :
    AllProper s.kinds := by
  cases s with
  | procedure name parameters body =>
    simpa [Statement.kinds, allProper_names] using
      ⟨h.1, h.2.1, Statement.ListWellFormed.proper h.2.2⟩
  | _ => exact Statement.WellFormed.proper h

theorem allProper_listKinds {tree : List Statement} (h : ∀ s ∈ tree, s.OuterWellFormed) :
    AllProper (Statement.listKinds tree) := by
  induction tree with
  | nil => exact allProper_nil
  | cons s ss ih =>
    obtain ⟨hs, hss⟩ := List.forall_mem_cons.1 h
    exact allProper_append.2 ⟨hs.proper, ih hss⟩

/-! ## What is printed has a derivation -/

/-- The word derives the expression as a phrase of a tier. -/
def IsPhrase (tier : Nat) (w : List Token.Kind) (e : Expression) : Prop :=
  ∃ d : Phrase tier, d.word = w ∧ d.tree = e

theorem IsPhrase.succ {tier : Nat} {w : List Token.Kind} {e : Expression} (h : IsPhrase tier w e) :
    IsPhrase (tier + 1) w e := by
  obtain ⟨d, rfl, rfl⟩ := h
  exact ⟨.chain d .done, by simp [Phrase.word, Operands.word], rfl⟩

theorem IsPhrase.mono {m n : Nat} {w : List Token.Kind} {e : Expression} (h : IsPhrase m w e)
    (hm : m ≤ n) : IsPhrase n w e := by
  induction hm with
  | refl => exact h
  | step _ ih => exact ih.succ

theorem IsPhrase.parenthesized {tier : Nat} {w : List Token.Kind} {e : Expression}
    (h : IsPhrase tier w e) (ht : tier ≤ 3) :
    IsPhrase 0 (.symbol .leftParen :: (w ++ [.symbol .rightParen])) e := by
  obtain ⟨d, rfl, rfl⟩ := h.mono ht
  exact ⟨.parenthesized d, rfl, rfl⟩

theorem IsPhrase.negated {w : List Token.Kind} {e : Expression} (h : IsPhrase 0 w e) :
    IsPhrase 0 (.symbol .minus :: w) e.negate := by
  obtain ⟨d, rfl, rfl⟩ := h
  exact ⟨.negated d, rfl, rfl⟩

theorem IsPhrase.binary {l r : List Token.Kind} {left right : Expression} (hl : IsPhrase 0 l left)
    (op : Operator) (hr : IsPhrase 0 r right) :
    IsPhrase (op.tier + 1) (l ++ .symbol op.sign :: r) (.binary left op right) := by
  obtain ⟨dl, rfl, rfl⟩ := hl.mono (Nat.zero_le op.tier)
  obtain ⟨dr, rfl, rfl⟩ := hr.mono (Nat.zero_le op.tier)
  exact ⟨.chain dl (.more op rfl dr .done), by simp [Phrase.word, Operands.word], rfl⟩

mutual

theorem Expression.isPhrase_kinds : (e : Expression) → e.WellFormed → IsPhrase 0 e.kinds e
  | .number value, _ => ⟨.number value, rfl, rfl⟩
  | .variable name, _ => ⟨.variable name, rfl, rfl⟩
  | .binary left op right, h => by
    have hleft : IsPhrase 0 left.kinds left := left.isPhrase_kinds h.1
    rw [Expression.kinds]
    split
    next hsign =>
      obtain ⟨rfl, rfl⟩ := hsign
      exact (hleft.parenthesized (by omega)).negated
    next hsign =>
      have htier : op.tier + 1 ≤ 3 := by cases op <;> decide
      have hright : IsPhrase 0 right.kinds right :=
        right.isPhrase_kinds (h.2.resolve_right hsign)
      simpa using (hleft.binary op hright).parenthesized htier
  | .call name arguments, h => by
    obtain ⟨d, hw, ht⟩ := Expression.arguments_kinds arguments h.2
    exact ⟨.call name d, by simp [Phrase.word, Expression.kinds, hw], by simp [Phrase.tree, ht]⟩

theorem Expression.arguments_kinds : (es : List Expression) → Expression.ListWellFormed es →
    ∃ d : Arguments, d.word = Expression.listKinds es ∧ d.trees = es
  | [], _ => ⟨.none, rfl, rfl⟩
  | e :: es, h => by
    obtain ⟨d, hw, ht⟩ := (e.isPhrase_kinds h.1).mono (Nat.zero_le 2)
    obtain ⟨ds, hws, hts⟩ := Expression.moreArguments_kinds es h.2
    exact ⟨.some d ds, by simp [Arguments.word, Expression.listKinds, hw, hws],
      by simp [Arguments.trees, ht, hts]⟩

theorem Expression.moreArguments_kinds : (es : List Expression) → Expression.ListWellFormed es →
    ∃ d : MoreArguments, d.word = Expression.moreKinds es ∧ d.trees = es
  | [], _ => ⟨.done, rfl, rfl⟩
  | e :: es, h => by
    obtain ⟨d, hw, ht⟩ := (e.isPhrase_kinds h.1).mono (Nat.zero_le 2)
    obtain ⟨ds, hws, hts⟩ := Expression.moreArguments_kinds es h.2
    exact ⟨.more d ds, by simp [MoreArguments.word, Expression.moreKinds, hw, hws],
      by simp [MoreArguments.trees, ht, hts]⟩

end

mutual

theorem Statement.sentence_kinds : (s : Statement) → s.WellFormed →
    ∃ d : Sentence, d.word = s.kinds ∧ d.tree = s
  | .assign name value, h => by
    obtain ⟨d, hw, rfl⟩ := (value.isPhrase_kinds h.2).mono (Nat.zero_le 2)
    exact ⟨.assign name d, by simp [Sentence.word, Statement.kinds, hw], rfl⟩
  | .block body, h => by
    obtain ⟨ds, hw, rfl⟩ := Statement.sentences_kinds body h
    exact ⟨.block ds false, by simp [Sentence.word, Statement.kinds, hw], rfl⟩
  | .branch condition onTrue onFalse, h => by
    obtain ⟨d, hw, rfl⟩ := (condition.isPhrase_kinds h.1).mono (Nat.zero_le 3)
    obtain ⟨ds, hws, rfl⟩ := Statement.sentences_kinds onTrue h.2.1
    obtain ⟨ds', hws', rfl⟩ := Statement.sentences_kinds onFalse h.2.2
    exact ⟨.branch d true ds (.present ds'),
      by simp [Sentence.word, Alternative.word, Statement.kinds, hw, hws, hws'], rfl⟩
  | .loop condition body, h => by
    obtain ⟨d, hw, rfl⟩ := (condition.isPhrase_kinds h.1).mono (Nat.zero_le 3)
    obtain ⟨ds, hws, rfl⟩ := Statement.sentences_kinds body h.2
    exact ⟨.loop d ds, by simp [Sentence.word, Statement.kinds, hw, hws], rfl⟩
  | .read name, _ => ⟨.read name, rfl, rfl⟩
  | .display value, h => by
    obtain ⟨d, hw, rfl⟩ := (value.isPhrase_kinds h).mono (Nat.zero_le 3)
    exact ⟨.display d, by simp [Sentence.word, Statement.kinds, hw], rfl⟩
  | .return value, h => by
    obtain ⟨d, hw, rfl⟩ := (value.isPhrase_kinds h).mono (Nat.zero_le 2)
    exact ⟨.return d, by simp [Sentence.word, Statement.kinds, hw], rfl⟩

theorem Statement.sentences_kinds : (ss : List Statement) → Statement.ListWellFormed ss →
    ∃ d : Sentences, d.word = Statement.listKinds ss ∧ d.trees = ss
  | [], _ => ⟨.nil, rfl, rfl⟩
  | s :: ss, h => by
    obtain ⟨d, hw, ht⟩ := s.sentence_kinds h.1
    obtain ⟨ds, hws, hts⟩ := Statement.sentences_kinds ss h.2
    exact ⟨.cons d ds, by simp [Sentences.word, Statement.listKinds, hw, hws],
      by simp [Sentences.trees, ht, hts]⟩

end

theorem Statement.item_kinds (s : Statement) (h : s.OuterWellFormed) :
    ∃ item : Item, item.word = s.kinds ∧ item.tree = s := by
  have hsentence : s.WellFormed → ∃ item : Item, item.word = s.kinds ∧ item.tree = s := fun hs =>
    let ⟨d, hw, ht⟩ := s.sentence_kinds hs
    ⟨.statement d, hw, ht⟩
  cases s with
  | procedure name parameters body =>
    obtain ⟨ds, hw, rfl⟩ := Statement.sentences_kinds body h.2.2
    exact ⟨.declaration ⟨name, parameters, ds⟩,
      by simp [Item.word, Declaration.word, Statement.kinds, hw], rfl⟩
  | _ => exact hsentence h

theorem Statement.items_kinds {ss : List Statement} (h : ∀ s ∈ ss, s.OuterWellFormed) :
    ∃ items, word items = Statement.listKinds ss ∧ tree items = ss := by
  induction ss with
  | nil => exact ⟨[], rfl, rfl⟩
  | cons s ss ih =>
    obtain ⟨hs, hss⟩ := List.forall_mem_cons.1 h
    obtain ⟨item, hw, ht⟩ := s.item_kinds hs
    obtain ⟨items, hws, hts⟩ := ih hss
    refine ⟨item :: items, ?_, ?_⟩
    · show item.word ++ word items = s.kinds ++ Statement.listKinds ss
      rw [hw, hws]
    · show item.tree :: tree items = s :: ss
      rw [ht, hts]

end Blockwork
