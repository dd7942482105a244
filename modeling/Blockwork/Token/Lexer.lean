import Blockwork.Error
import Blockwork.Text.Blank

/-!
# Scanning

A `Lexer` reads a text from left to right and yields one token at a time. Blanks, and comments from
`//` to the end of the line, stand between tokens and are passed over.

* `Position`: a place in the text, moved on character by character.
* `splitGap`: the blanks and comments at the front of a text; `splitGap_append` says that nothing is
  lost.
* `lexeme`: the longest token, or the faulty text, at the front of what follows a gap.
* `Lexer.next`: the next token or fault. A lexer goes on after a fault and repeats the end of input.
* `Scan`, `tokenize`: all tokens up to the end of input or to the first fault.
* `Lexer.length_next_lt`: every outcome but the end of input takes at least one character.
-/

namespace Blockwork

/-! ## Places -/

/-- A place in a text: the bytes before it, its line counted from one, and the characters before it
on that line. -/
structure Position where
  offset : Nat := 0
  line : Nat := 1
  column : Nat := 0
  deriving DecidableEq, Repr

namespace Position

/-- The place after a character. Only a newline starts a line. -/
def next (p : Position) (c : Char) : Position :=
  if c = '\n' then ⟨p.offset + c.utf8Size, p.line + 1, 0⟩
  else ⟨p.offset + c.utf8Size, p.line, p.column + 1⟩

/-- The place after a text. -/
def after (p : Position) (cs : List Char) : Position :=
  cs.foldl next p

/-- The span from one place to another. -/
def spanTo (p q : Position) : Span :=
  ⟨p.offset, q.offset, p.line, p.column⟩

end Position

/-! ## Gaps -/

/-- Splits off the blanks and comments at the front of a text. The flag tells whether the text
starts inside a comment; the newline that ends a comment is a blank. -/
def splitGap (inComment : Bool) : List Char → List Char × List Char
  | [] => ([], [])
  | c :: cs =>
    if (inComment && c != '\n') || (c == '/' && cs.head? == some '/') then
      let (gap, rest) := splitGap true cs
      (c :: gap, rest)
    else if isBlank c then
      let (gap, rest) := splitGap false cs
      (c :: gap, rest)
    else ([], c :: cs)

theorem splitGap_append (inComment : Bool) (cs : List Char) :
    (splitGap inComment cs).1 ++ (splitGap inComment cs).2 = cs := by
  fun_induction splitGap inComment cs <;> simp_all

/-! ## Lexemes -/

/-- A name or keyword starts with an ASCII letter or an underscore. -/
def isWordStart (c : Char) : Bool :=
  c.isAlpha || c == '_'

/-- A name or keyword goes on with ASCII letters, digits and underscores. -/
def isWordPart (c : Char) : Bool :=
  c.isAlphanum || c == '_'

/-- A text at the front of the input, what it is, and what follows it. -/
structure Lexeme where
  text : List Char
  reading : Except LexFault Token.Kind
  rest : List Char

/-- A word is a keyword or else a name. -/
def wordKind (word : String) : Token.Kind :=
  match Keyword.ofWord? word with
  | some keyword => .keyword keyword
  | none => .identifier word

/-- A run of digits is a 32-bit word or else a fault. -/
def integerKind (digits : List Char) : Except LexFault Token.Kind :=
  match readWord? digits with
  | some value => .ok (.integer value)
  | none => .error (.tooLarge (String.ofList digits))

/-- The symbol of two characters. -/
def Symbol.ofPair? : Char → Char → Option Symbol
  | '<', '=' => some lessEqual
  | '<', '>' => some notEqual
  | '>', '=' => some greaterEqual
  | _, _ => none

/-- The symbol of one character. -/
def Symbol.ofChar? : Char → Option Symbol
  | '+' => some plus
  | '-' => some minus
  | '*' => some star
  | '/' => some slash
  | '=' => some equal
  | '<' => some less
  | '>' => some greater
  | '(' => some leftParen
  | ')' => some rightParen
  | ',' => some comma
  | ';' => some semicolon
  | _ => none

/-- The lexeme that starts with a character other than a blank. Words, digit runs and symbols are as
long as they can be; a character that starts none of them is a fault of its own. -/
def lexeme (c : Char) (cs : List Char) : Lexeme :=
  if isWordStart c then
    let word := c :: cs.takeWhile isWordPart
    ⟨word, .ok (wordKind (String.ofList word)), cs.dropWhile isWordPart⟩
  else if c.isDigit then
    let digits := c :: cs.takeWhile Char.isDigit
    ⟨digits, integerKind digits, cs.dropWhile Char.isDigit⟩
  else
    match cs.head?.bind (Symbol.ofPair? c) with
    | some sign => ⟨c :: cs.take 1, .ok (.symbol sign), cs.drop 1⟩
    | none =>
      match Symbol.ofChar? c with
      | some sign => ⟨[c], .ok (.symbol sign), cs⟩
      | none => ⟨[c], .error (.unexpected c), cs⟩

theorem lexeme_append (c : Char) (cs : List Char) :
    (lexeme c cs).text ++ (lexeme c cs).rest = c :: cs := by
  unfold lexeme
  split
  · simp
  · split
    · simp
    · split
      · cases cs <;> simp
      · split <;> simp

theorem lexeme_text_ne_nil (c : Char) (cs : List Char) : (lexeme c cs).text ≠ [] := by
  unfold lexeme
  split
  · simp
  · split
    · simp
    · split
      · simp
      · split <;> simp

/-! ## The lexer -/

/-- A text that is being scanned: what is left of it, where that starts, and whether the end of
input has been reported. -/
structure Lexer where
  rest : List Char
  position : Position := {}
  ended : Bool := false
  deriving DecidableEq, Repr

namespace Lexer

def ofString (source : String) : Lexer :=
  { rest := source.toList }

/-- There is more to report until the end of input has been reported. -/
def hasNext (l : Lexer) : Bool :=
  !l.ended

/-- The next token or fault, and the lexer after it. At the end every call gives the same token. -/
def next (l : Lexer) : Except LexError Token × Lexer :=
  let (gap, rest) := splitGap false l.rest
  let start := l.position.after gap
  match rest with
  | [] => (.ok ⟨.endOfInput, start.spanTo start⟩, ⟨[], start, true⟩)
  | c :: cs =>
    let found := lexeme c cs
    let stop := start.after found.text
    let outcome :=
      match found.reading with
      | .ok kind => .ok ⟨kind, start.spanTo stop⟩
      | .error fault => .error ⟨fault, start.line, start.column + 1⟩
    (outcome, ⟨found.rest, stop, l.ended⟩)

/-- As `next`, but nothing once the end of input has been reported. -/
def next? (l : Lexer) : Option (Except LexError Token) × Lexer :=
  if l.ended then (none, l)
  else
    let (outcome, l') := l.next
    (some outcome, l')

theorem length_next_lt {l : Lexer} (h : l.next.2.ended = false) :
    l.next.2.rest.length < l.rest.length := by
  have gap := congrArg List.length (splitGap_append false l.rest)
  unfold next at h ⊢
  split
  next g rest hs =>
    rw [hs] at h gap
    cases rest with
    | nil => simp at h
    | cons c cs =>
      have text := congrArg List.length (lexeme_append c cs)
      have := List.length_pos_iff.2 (lexeme_text_ne_nil c cs)
      simp only [List.length_append, List.length_cons] at gap text ⊢
      omega

end Lexer

/-! ## Whole texts -/

/-- What scanning a text yields: tokens, and then the token for the end of input or the first
fault. -/
structure Scan where
  tokens : List Token
  finish : Except LexError Token
  deriving Repr

/-- Scans to the end of input or to the first fault. -/
def Lexer.scan (l : Lexer) : Scan :=
  match l.next.1 with
  | .error error => ⟨[], .error error⟩
  | .ok token =>
    if _h : l.next.2.ended = false then
      let later := l.next.2.scan
      ⟨token :: later.tokens, later.finish⟩
    else ⟨[], .ok token⟩
termination_by l.rest.length
decreasing_by exact length_next_lt ‹_›

/-- All tokens of a text, the end of input included, or the first fault. -/
def tokenize (source : String) : Except LexError (List Token) :=
  let scan := (Lexer.ofString source).scan
  scan.finish.map fun last => scan.tokens ++ [last]

end Blockwork
