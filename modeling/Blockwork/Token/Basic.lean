import Blockwork.Text.Decimal

/-!
# Tokens

A source text is a sequence of words: names, whole numbers, keywords and symbols.

* `Keyword`, `Symbol`: the fixed words, each with its `text`.
* `Token.Kind`: what a token is; `Kind.sameKind` compares kinds but not the name or number in them.
* `Kind.describe`: how messages name a kind.
* `Span`, `Token`: a kind together with the place where it stands.
-/

namespace Blockwork

/-- The reserved words. -/
inductive Keyword where
  | display | begin | end | endfile | if | then | do | else | while | read | return | assign
  | procedure
  deriving DecidableEq, Repr

namespace Keyword

/-- The spelling that messages show. -/
def text : Keyword → String
  | display => "display"
  | begin => "begin"
  | .end => "end"
  | endfile => "endfile"
  | .if => "if"
  | .then => "then"
  | .do => "do"
  | .else => "else"
  | .while => "while"
  | read => "read"
  | .return => "return"
  | assign => "assign"
  | procedure => "PROCEDURE"

/-- The keyword that a word spells. Case matters, and `procedure` has two spellings. -/
def ofWord? (word : String) : Option Keyword :=
  match word with
  | "display" => some display
  | "begin" => some begin
  | "end" => some .end
  | "endfile" => some endfile
  | "if" => some .if
  | "then" => some .then
  | "do" => some .do
  | "else" => some .else
  | "while" => some .while
  | "read" => some read
  | "return" => some .return
  | "assign" => some assign
  | "PROCEDURE" => some procedure
  | "procedure" => some procedure
  | _ => none

theorem ofWord?_text (k : Keyword) : ofWord? k.text = some k := by
  cases k <;> rfl

end Keyword

/-- The operator signs and the marks of punctuation. -/
inductive Symbol where
  | plus | minus | star | slash | equal | notEqual | less | lessEqual | greater | greaterEqual
  | leftParen | rightParen | comma | semicolon
  deriving DecidableEq, Repr

/-- The characters of a symbol. -/
def Symbol.text : Symbol → String
  | plus => "+"
  | minus => "-"
  | star => "*"
  | slash => "/"
  | equal => "="
  | notEqual => "<>"
  | less => "<"
  | lessEqual => "<="
  | greater => ">"
  | greaterEqual => ">="
  | leftParen => "("
  | rightParen => ")"
  | comma => ","
  | semicolon => ";"

/-- What a token is. -/
inductive Token.Kind where
  | identifier (name : String)
  | integer (value : Int32)
  | keyword (word : Keyword)
  | symbol (sign : Symbol)
  | endOfInput
  deriving DecidableEq, Repr

namespace Token.Kind

/-- Equality up to the name of an identifier and the value of an integer. -/
def sameKind : Kind → Kind → Bool
  | identifier _, identifier _ => true
  | integer _, integer _ => true
  | keyword a, keyword b => a = b
  | symbol a, symbol b => a = b
  | endOfInput, endOfInput => true
  | _, _ => false

/-- How messages name a kind: fixed words stand in quotes. -/
def describe : Kind → String
  | identifier name => s!"identifier '{name}'"
  | integer value => "integer " ++ String.ofList (decimal value.toInt)
  | keyword word => s!"'{word.text}'"
  | symbol sign => s!"'{sign.text}'"
  | endOfInput => "end of input"

end Token.Kind

/-- Where a token stands: its first byte and the byte after its last, its line counted from one, and
the number of characters before it on that line. -/
structure Span where
  start : Nat
  stop : Nat
  line : Nat
  column : Nat
  deriving DecidableEq, Repr

/-- A word of the source text with its place. -/
structure Token where
  kind : Token.Kind
  span : Span
  deriving DecidableEq, Repr

end Blockwork
