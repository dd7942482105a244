import Blockwork.Proofs.ParserComplete
import Blockwork.Proofs.Printing

/-!
# Printing and parsing

The trees that the parser yields are the well-formed ones, and each of them is parsed from what is
printed of it.

* `Phrase.wellFormed`, `Sentence.wellFormed`, `Item.wellFormed`: the tree of a derivation whose
  word can be found in a text.
* `parse_printTree`, `wellFormedTree_of_parse`: the two directions.
-/

namespace Blockwork

open Grammar Blockwork.Parser

namespace Grammar

/-! ## The trees of derivations -/

mutual

theorem Phrase.wellFormed {tier : Nat} : (d : Phrase tier) → AllProper d.word → d.tree.WellFormed
  | .number _, h => (allProper_cons.1 h).1
  | .variable _, h => (allProper_cons.1 h).1
  | .call name arguments, h => by
    simp only [Phrase.word, allProper_cons, allProper_append, Token.Kind.proper_identifier] at h
    exact ⟨h.1, arguments.wellFormed h.2.2.1⟩
  | .negated operand, h => ⟨operand.wellFormed (allProper_cons.1 h).2, .inr ⟨rfl, rfl⟩⟩
  | .parenthesized inner, h =>
    inner.wellFormed (allProper_append.1 (allProper_cons.1 h).2).1
  | .chain first more, h =>
    let ⟨hfirst, hmore⟩ := allProper_append.1 h
    more.wellFormed hmore (first.wellFormed hfirst)

/-- A chain is well formed if the part to the left is. -/
theorem Operands.wellFormed {tier : Nat} {left : Expression} : (d : Operands tier) →
    AllProper d.word → left.WellFormed → (d.tree left).WellFormed
  | .done, _, hleft => hleft
  | .more _ _ right rest, h, hleft =>
    let ⟨hright, hrest⟩ := allProper_append.1 (allProper_cons.1 h).2
    rest.wellFormed hrest ⟨hleft, .inl (right.wellFormed hright)⟩

theorem Arguments.wellFormed : (d : Arguments) → AllProper d.word →
    Expression.ListWellFormed d.trees
  | .none, _ => trivial
  | .some first more, h =>
    let ⟨hfirst, hmore⟩ := allProper_append.1 h
    ⟨first.wellFormed hfirst, more.wellFormed hmore⟩

theorem MoreArguments.wellFormed : (d : MoreArguments) → AllProper d.word →
    Expression.ListWellFormed d.trees
  | .done, _ => trivial
  | .more argument rest, h =>
    let ⟨hargument, hrest⟩ := allProper_append.1 (allProper_cons.1 h).2
    ⟨argument.wellFormed hargument, rest.wellFormed hrest⟩

end

mutual

theorem Sentence.wellFormed : (d : Sentence) → AllProper d.word → d.tree.WellFormed
  | .display value, h => value.wellFormed (allProper_cons.1 h).2
  | .block body _, h => body.wellFormed (allProper_append.1 (allProper_cons.1 h).2).1
  | .branch condition _ onTrue onFalse, h => by
    simp only [Sentence.word, allProper_cons, allProper_append] at h
    exact ⟨condition.wellFormed h.2.1, onTrue.wellFormed h.2.2.2.1,
      onFalse.wellFormed h.2.2.2.2.1⟩
  | .loop condition body, h => by
    simp only [Sentence.word, allProper_cons, allProper_append] at h
    exact ⟨condition.wellFormed h.2.1, body.wellFormed h.2.2.2.1⟩
  | .read _, h => (allProper_cons.1 (allProper_cons.1 h).2).1
  | .return value, h => value.wellFormed (allProper_cons.1 h).2
  | .assign _ value, h => by
    simp only [Sentence.word, allProper_cons, Token.Kind.proper_identifier] at h
    exact ⟨h.2.1, value.wellFormed h.2.2.2⟩

theorem Alternative.wellFormed : (d : Alternative) → AllProper d.word →
    Statement.ListWellFormed d.trees
  | .absent, _ => trivial
  | .present body, h => body.wellFormed (allProper_cons.1 h).2

theorem Sentences.wellFormed : (d : Sentences) → AllProper d.word →
    Statement.ListWellFormed d.trees
  | .nil, _ => trivial
  | .cons first rest, h =>
    let ⟨hfirst, hrest⟩ := allProper_append.1 h
    ⟨first.wellFormed hfirst, rest.wellFormed hrest⟩

end

theorem Item.wellFormed (item : Item) (h : AllProper item.word) : item.tree.OuterWellFormed := by
  cases item with
  | declaration d =>
    replace h : AllProper d.word := h
    simp only [Declaration.word, allProper_cons, allProper_append, Token.Kind.proper_identifier,
      allProper_names] at h
    exact ⟨h.2.1, h.2.2.2.1, d.body.wellFormed h.2.2.2.2.2.1⟩
  | statement d =>
    have hd : d.tree.WellFormed := d.wellFormed h
    -- No sentence stands for a declaration.
    cases d <;> exact hd

theorem tree_wellFormed {items : List Item} (h : AllProper (word items)) :
    ∀ s ∈ tree items, s.OuterWellFormed := by
  induction items with
  | nil => exact List.forall_mem_nil _
  | cons item items ih =>
    obtain ⟨hitem, hitems⟩ := allProper_append.1 (show AllProper (item.word ++ word items) from h)
    exact List.forall_mem_cons.2 ⟨item.wellFormed hitem, ih hitems⟩

end Grammar

/-! ## There and back -/

/-- What is printed of a well-formed tree is parsed to this tree. -/
theorem parse_printTree {ss : List Statement} (h : WellFormedTree ss) :
    Program.parse (printTree ss) = .ok ⟨ss, .ofTree ss⟩ := by
  obtain ⟨tokens, htokens, hkinds⟩ := tokenize_spell (allProper_listKinds h.1)
  obtain ⟨items, hw, rfl⟩ := Statement.items_kinds h.1
  have hderives : Derives items (tokens.map Token.kind) :=
    ⟨.endOfInput, [], .inr (.inr rfl), by rw [hkinds, hw]⟩
  have hnames : (declared items).Nodup := procedures_tree items ▸ h.2
  have htree : parseTree (printTree (tree items)) = .ok (tree items) :=
    (parseTree_eq_ok htokens _).2 ⟨items, hderives, hnames, rfl⟩
  rw [Program.parse_eq, htree]
  rfl

/-- What the parser yields is well formed. -/
theorem wellFormedTree_of_parse {source : String} {p : Program}
    (h : Program.parse source = .ok p) : WellFormedTree p.tree := by
  cases ht : parseTree source with
  | error e => rw [Program.parse_eq, ht] at h; cases h
  | ok ss =>
    rw [Program.parse_eq, ht] at h
    cases h
    refine ⟨?_, parseTree_nodup ht⟩
    obtain ⟨_, -, htop⟩ := eq_ok_of_bind ((parseTree_eq source).symm.trans ht)
    obtain ⟨items, rest, ⟨first, hfirst, hw⟩, -, rfl, -⟩ := topLevel_sound htop List.nodup_nil
    have hproper := Lexer.proper_of_scan (l := Lexer.ofString source) rfl
    rw [hfirst, List.map_append, allProper_append, hw] at hproper
    exact tree_wellFormed hproper.1

/-- The well-formed trees are those that the parser yields, and printing a tree and parsing the text
gives back the tree. -/
theorem printing_round_trip :
    (∀ tree, WellFormedTree tree →
      Program.parse (printTree tree) = .ok ⟨tree, .ofTree tree⟩) ∧
    ∀ source p, Program.parse source = .ok p → WellFormedTree p.tree :=
  ⟨fun _ => parse_printTree, fun _ _ => wellFormedTree_of_parse⟩

/-- A tree with a number that is negated twice, a call in a call, and bodies without statements. -/
def printedTree : List Statement :=
  [.procedure "f" ["a", "b"] [],
    .assign "x" (.call "f" [.binary (.binary (.number 7) .multiply (.number (-1))) .multiply
      (.number (-1)), .call "f" []]),
    .branch (.binary (.variable "x") .equal (.binary (.number 1) .subtract (.number 2))) [] [],
    .block [.loop (.variable "x") [.read "x"], .return (.number 0)]]

def printedText : String :=
  "PROCEDURE f ( a , b ) end assign x = f ( - ( - ( 7 ) ) , f ( ) ) " ++
  "if ( x = ( 1 - 2 ) ) then else end begin while x do read x end return 0 end"

theorem printing_round_trip_printedTree :
    (WellFormedTree printedTree ∧ printTree printedTree = printedText ∧
      Program.parse (printTree printedTree) = .ok ⟨printedTree, .ofTree printedTree⟩) ∧
    ∃ p, Program.parse "display - - 1 * 2 = 3" = .ok p ∧ WellFormedTree p.tree := by
  have hwell : WellFormedTree printedTree := by decide +kernel
  have hsource : Program.parse "display - - 1 * 2 = 3" =
      .ok ⟨[.display (.binary (.binary (.binary (.binary (.number 1) .multiply (.number (-1)))
        .multiply (.number (-1))) .multiply (.number 2)) .equal (.number 3))], {}⟩ := by
    decide +kernel
  exact ⟨⟨hwell, by decide +kernel, printing_round_trip.1 _ hwell⟩, _, hsource,
    printing_round_trip.2 _ _ hsource⟩

end Blockwork
