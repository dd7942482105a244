import Blockwork.Tree.Parser

/-!
# The grammar of source texts

The grammar is given by its derivations. A derivation is a tree that keeps all tokens: the
parentheses, the word that opens a branch, the semicolon behind a block. Operators have three tiers,
counted from the tightest; a phrase of the next tier is a chain of phrases with operators of the
tier between them.

* `Phrase`, `Sentence`, `Declaration`, `Item`: the derivations of expressions, statements,
  procedures, and the parts of a text.
* `word`: the token kinds that a derivation derives; `tree`: the tree that it stands for. Chains
  group to the left.
* `Follows`, `Boundary`: what can come behind a phrase and behind a sentence.
* `Derives`: a text is derived from a prefix of the tokens that ends before a closing word.
-/

namespace Blockwork

/-- The tier of an operator, the tightest first. -/
def Operator.tier : Operator → Nat
  | multiply | divide => 0
  | add | subtract => 1
  | equal | notEqual | less | lessEqual | greater | greaterEqual => 2

/-- The sign of an operator in a source text. -/
def Operator.sign : Operator → Symbol
  | multiply => .star
  | divide => .slash
  | add => .plus
  | subtract => .minus
  | equal => .equal
  | notEqual => .notEqual
  | less => .less
  | lessEqual => .lessEqual
  | greater => .greater
  | greaterEqual => .greaterEqual

theorem Operator.sign_injective {a b : Operator} (h : a.sign = b.sign) : a = b := by
  cases a <;> cases b <;> first | rfl | cases h

namespace Grammar

/-! ## Expressions -/

mutual

/-- A factor is a phrase of tier zero, a product one of tier one, a sum one of tier two, and a
conditional one of tier three. -/
inductive Phrase : Nat → Type where
  | number (value : Int32) : Phrase 0
  | variable (name : String) : Phrase 0
  | call (name : String) (arguments : Arguments) : Phrase 0
  | negated (operand : Phrase 0) : Phrase 0
  | parenthesized (inner : Phrase 3) : Phrase 0
  | chain {tier : Nat} (first : Phrase tier) (more : Operands tier) : Phrase (tier + 1)

/-- The rest of a chain: an operator before each operand. -/
inductive Operands : Nat → Type where
  | done {tier : Nat} : Operands tier
  | more {tier : Nat} (op : Operator) (h : op.tier = tier) (right : Phrase tier)
    (rest : Operands tier) : Operands tier

/-- The arguments of a call. -/
inductive Arguments : Type where
  | none
  | some (first : Phrase 2) (more : MoreArguments)

/-- The rest of the arguments: a comma before each of them. -/
inductive MoreArguments : Type where
  | done
  | more (argument : Phrase 2) (rest : MoreArguments)

end

mutual

def Phrase.word {tier : Nat} : Phrase tier → List Token.Kind
  | .number value => [.integer value]
  | .variable name => [.identifier name]
  | .call name arguments =>
    .identifier name :: .symbol .leftParen :: (arguments.word ++ [.symbol .rightParen])
  | .negated operand => .symbol .minus :: operand.word
  | .parenthesized inner => .symbol .leftParen :: (inner.word ++ [.symbol .rightParen])
  | .chain first more => first.word ++ more.word

def Operands.word {tier : Nat} : Operands tier → List Token.Kind
  | .done => []
  | .more op _ right rest => .symbol op.sign :: (right.word ++ rest.word)

def Arguments.word : Arguments → List Token.Kind
  | .none => []
  | .some first more => first.word ++ more.word

def MoreArguments.word : MoreArguments → List Token.Kind
  | .done => []
  | .more argument rest => .symbol .comma :: (argument.word ++ rest.word)

end

mutual

def Phrase.tree {tier : Nat} : Phrase tier → Expression
  | .number value => .number value
  | .variable name => .variable name
  | .call name arguments => .call name arguments.trees
  | .negated operand => operand.tree.negate
  | .parenthesized inner => inner.tree
  | .chain first more => more.tree first.tree

/-- The tree of a chain, given the tree of the part to the left. -/
def Operands.tree {tier : Nat} (left : Expression) : Operands tier → Expression
  | .done => left
  | .more op _ right rest => rest.tree (.binary left op right.tree)

def Arguments.trees : Arguments → List Expression
  | .none => []
  | .some first more => first.tree :: more.trees

def MoreArguments.trees : MoreArguments → List Expression
  | .done => []
  | .more argument rest => argument.tree :: rest.trees

end

/-! ## Statements -/

mutual

inductive Sentence : Type where
  | display (value : Phrase 3)
  | block (body : Sentences) (semicolon : Bool)
  /-- A branch opens with `then` or with `do`. -/
  | branch (condition : Phrase 3) (withThen : Bool) (onTrue : Sentences) (onFalse : Alternative)
  | loop (condition : Phrase 3) (body : Sentences)
  | read (name : String)
  | return (value : Phrase 2)
  | assign (name : String) (value : Phrase 2)

inductive Alternative : Type where
  | absent
  | present (body : Sentences)

inductive Sentences : Type where
  | nil
  | cons (first : Sentence) (rest : Sentences)

end

mutual

def Sentence.word : Sentence → List Token.Kind
  | .display value => .keyword .display :: value.word
  | .block body semicolon =>
    .keyword .begin ::
      (body.word ++ .keyword .end :: if semicolon then [.symbol .semicolon] else [])
  | .branch condition withThen onTrue onFalse =>
    .keyword .if :: (condition.word ++ .keyword (if withThen then .then else .do) ::
      (onTrue.word ++ (onFalse.word ++ [.keyword .end])))
  | .loop condition body =>
    .keyword .while :: (condition.word ++ .keyword .do :: (body.word ++ [.keyword .end]))
  | .read name => [.keyword .read, .identifier name]
  | .return value => .keyword .return :: value.word
  | .assign name value =>
    .keyword .assign :: .identifier name :: .symbol .equal :: value.word

def Alternative.word : Alternative → List Token.Kind
  | .absent => []
  | .present body => .keyword .else :: body.word

def Sentences.word : Sentences → List Token.Kind
  | .nil => []
  | .cons first rest => first.word ++ rest.word

end

mutual

def Sentence.tree : Sentence → Statement
  | .display value => .display value.tree
  | .block body _ => .block body.trees
  | .branch condition _ onTrue onFalse => .branch condition.tree onTrue.trees onFalse.trees
  | .loop condition body => .loop condition.tree body.trees
  | .read name => .read name
  | .return value => .return value.tree
  | .assign name value => .assign name value.tree

def Alternative.trees : Alternative → List Statement
  | .absent => []
  | .present body => body.trees

def Sentences.trees : Sentences → List Statement
  | .nil => []
  | .cons first rest => first.tree :: rest.trees

end

/-! ## Texts -/

/-- The rest of a list of names: a comma before each of them. -/
def moreNames (names : List String) : List Token.Kind :=
  names.flatMap fun name => [.symbol .comma, .identifier name]

/-- A list of names with commas between them. -/
def names : List String → List Token.Kind
  | [] => []
  | name :: more => .identifier name :: moreNames more

structure Declaration where
  name : String
  parameters : List String
  body : Sentences

def Declaration.word (d : Declaration) : List Token.Kind :=
  .keyword .procedure :: .identifier d.name :: .symbol .leftParen ::
    (names d.parameters ++ .symbol .rightParen :: (d.body.word ++ [.keyword .end]))

def Declaration.tree (d : Declaration) : Procedure :=
  ⟨d.name, d.parameters, d.body.trees⟩

/-- A part of a text. -/
inductive Item where
  | declaration (d : Declaration)
  | statement (s : Sentence)

def Item.word : Item → List Token.Kind
  | declaration d => d.word
  | statement s => s.word

def Item.tree : Item → Statement
  | declaration d => d.tree.marker
  | statement s => s.tree

/-- The name that an item declares. -/
def Item.declared? : Item → Option String
  | declaration d => some d.name
  | statement _ => none

/-- The token kinds of a whole text, up to its closing word. -/
def word (items : List Item) : List Token.Kind :=
  items.flatMap Item.word

/-- The tree of a whole text. -/
def tree (items : List Item) : List Statement :=
  items.map Item.tree

/-- The names that a text declares, in order. -/
def declared (items : List Item) : List String :=
  items.filterMap Item.declared?

/-- What a text ends before. -/
def Closing (kind : Token.Kind) : Prop :=
  kind = .keyword .end ∨ kind = .keyword .endfile ∨ kind = .endOfInput

/-- The items are a derivation of the token kinds up to a closing word. -/
def Derives (items : List Item) (kinds : List Token.Kind) : Prop :=
  ∃ stop rest, Closing stop ∧ kinds = word items ++ stop :: rest

/-! ## What comes behind -/

/-- The first of some token kinds. -/
def head : List Token.Kind → Token.Kind
  | [] => .endOfInput
  | kind :: _ => kind

/-- A kind that can come behind a phrase of a tier: neither a parenthesis, which would make a call
of a variable, nor an operator of a tier below. -/
def Follows (tier : Nat) (kind : Token.Kind) : Prop :=
  kind ≠ .symbol .leftParen ∧ ∀ op : Operator, op.tier < tier → kind ≠ .symbol op.sign

/-- The words that begin a sentence. -/
def sentenceWords : List Keyword :=
  [.display, .begin, .if, .while, .read, .return, .assign]

/-- A kind that can come behind a sentence. -/
def Boundary (kind : Token.Kind) : Prop :=
  (∃ word, kind = .keyword word) ∨ kind = .endOfInput

theorem Follows.mono {m n : Nat} {kind : Token.Kind} (h : Follows n kind) (hm : m ≤ n) :
    Follows m kind :=
  ⟨h.1, fun op hop => h.2 op (by omega)⟩

/-- An operator can come behind the phrases of its tier. -/
theorem Follows.operator (op : Operator) : Follows op.tier (.symbol op.sign) := by
  refine ⟨by cases op <;> decide, fun op' h he => ?_⟩
  obtain rfl : op = op' := Operator.sign_injective (by simpa using he)
  omega

theorem Follows.operands {tier : Nat} {rest : List Token.Kind} (h : Follows (tier + 1) (head rest))
    (more : Operands tier) : Follows tier (head (more.word ++ rest)) := by
  cases more with
  | done => exact h.mono (by omega)
  | more op h right rest => exact h ▸ .operator op

theorem Follows.rightParen (tier : Nat) : Follows tier (.symbol .rightParen) :=
  ⟨by decide, fun op _ => by cases op <;> decide⟩

theorem Follows.comma (tier : Nat) : Follows tier (.symbol .comma) :=
  ⟨by decide, fun op _ => by cases op <;> decide⟩

theorem Follows.moreArguments (tier : Nat) (more : MoreArguments) (rest : List Token.Kind) :
    Follows tier (head (more.word ++ .symbol .rightParen :: rest)) := by
  cases more with
  | done => exact .rightParen tier
  | more argument more => exact .comma tier

theorem Boundary.keyword (word : Keyword) : Boundary (.keyword word) := .inl ⟨word, rfl⟩

theorem Boundary.follows {kind : Token.Kind} (h : Boundary kind) (tier : Nat) :
    Follows tier kind := by
  obtain ⟨word, rfl⟩ | rfl := h <;> exact ⟨by simp, fun op _ => by simp⟩

/-- A kind that can come behind a list of sentences: nothing that begins another one. -/
def Stops (kind : Token.Kind) : Prop :=
  Boundary kind ∧ ∀ word ∈ sentenceWords, kind ≠ .keyword word

theorem Stops.end : Stops (.keyword .end) := ⟨.keyword _, by decide⟩

theorem Stops.alternative (d : Alternative) (rest : List Token.Kind) :
    Stops (head (d.word ++ .keyword .end :: rest)) := by
  cases d with
  | absent => exact .end
  | present body =>
    show Stops (.keyword .else)
    exact ⟨.keyword _, by decide⟩

theorem Closing.stops {kind : Token.Kind} (h : Closing kind) : Stops kind := by
  obtain rfl | rfl | rfl := h
  · exact .end
  · exact ⟨.keyword _, by decide⟩
  · exact ⟨.inr rfl, by simp⟩

/-! ## What derivations begin with -/

/-- A phrase has a token, and it does not begin with a closing parenthesis. -/
theorem Phrase.word_eq_cons {tier : Nat} : (d : Phrase tier) →
    ∃ kind rest, d.word = kind :: rest ∧ kind ≠ .symbol .rightParen
  | .number _ => ⟨_, _, rfl, by simp⟩
  | .variable _ => ⟨_, _, rfl, by simp⟩
  | .call _ _ => ⟨_, _, rfl, by simp⟩
  | .negated _ => ⟨_, _, rfl, by simp⟩
  | .parenthesized _ => ⟨_, _, rfl, by simp⟩
  | .chain first more => by
    obtain ⟨kind, rest, h, hk⟩ := first.word_eq_cons
    exact ⟨kind, rest ++ more.word, by simp [Phrase.word, h], hk⟩

theorem Sentence.word_eq_cons (s : Sentence) :
    ∃ word ∈ sentenceWords, ∃ rest, s.word = .keyword word :: rest := by
  cases s <;> exact ⟨_, by decide, _, rfl⟩

theorem Sentences.boundary {rest : List Token.Kind} (ss : Sentences) (h : Boundary (head rest)) :
    Boundary (head (ss.word ++ rest)) := by
  cases ss with
  | nil => exact h
  | cons s ss =>
    obtain ⟨word, -, _, hw⟩ := s.word_eq_cons
    simp only [Sentences.word, hw]
    exact .keyword word

/-- An item begins with the word for procedures if it is one, and else with a sentence's word. -/
theorem Item.word_eq_cons (item : Item) :
    (∃ d rest, item = .declaration d ∧ item.word = .keyword .procedure :: rest) ∨
    ∃ s word rest, item = .statement s ∧ word ∈ sentenceWords ∧
      item.word = .keyword word :: rest := by
  cases item with
  | declaration d => exact .inl ⟨d, _, rfl, rfl⟩
  | statement s =>
    obtain ⟨word, hmem, rest, hw⟩ := s.word_eq_cons
    exact .inr ⟨s, word, rest, rfl, hmem, hw⟩

theorem boundary_word {rest : List Token.Kind} (items : List Item) (h : Boundary (head rest)) :
    Boundary (head (word items ++ rest)) := by
  cases items with
  | nil => exact h
  | cons item items =>
    obtain ⟨_, _, -, hw⟩ | ⟨_, _, _, -, -, hw⟩ := item.word_eq_cons <;>
    · simp only [word, List.flatMap_cons, hw]
      exact .keyword _

end Grammar

end Blockwork
