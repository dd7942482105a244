import Blockwork.Token.Basic
import Blockwork.Tree.Equality

/-!
# Errors

Each stage has its own type of errors, and each error says what went wrong, not how to word it. The
wording is in the functions `message`.

* `IoError`: input or output failed.
* `LexError`: a text that is no token, with its place.
* `ParseError`: the tokens form no program.
* `RuntimeError`: a run cannot go on.
* `Obstacle`, `CompileError`: there is no code for a program, or its code cannot be written.
-/

namespace Blockwork

/-! ## Input and output -/

/-- A failure outside the program. -/
inductive IoError where
  /-- The output is full. -/
  | full
  | flushFailed
  | notUtf8
  /-- What the operating system reports, with its number. -/
  | system (text : String) (number : Nat)
  deriving DecidableEq, Repr

namespace IoError

def notFound : IoError := .system "No such file or directory" 2

def notDirectory : IoError := .system "Not a directory" 20

def isDirectory : IoError := .system "Is a directory" 21

def noSpace : IoError := .system "No space left on device" 28

def nameTooLong : IoError := .system "File name too long" 36

/-- Failures that are known by their numbers. -/
def known : List IoError := [notFound, notDirectory, isDirectory, noSpace, nameTooLong]

def message : IoError → String
  | full => "failed to write whole buffer"
  | flushFailed => "flush failed"
  | notUtf8 => "stream did not contain valid UTF-8"
  | system text number => s!"{text} (os error {number})"

end IoError

/-! ## Scanning -/

/-- Why a text is no token. -/
inductive LexFault where
  | unexpected (character : Char)
  /-- The digits denote no 32-bit word. -/
  | tooLarge (digits : String)
  deriving DecidableEq, Repr

/-- A fault with its line and column, both counted from one. -/
structure LexError where
  fault : LexFault
  line : Nat
  column : Nat
  deriving DecidableEq, Repr

def LexError.message (e : LexError) : String :=
  let place := s!"at line {e.line}, column {e.column}"
  match e.fault with
  | .unexpected character => s!"Unexpected character '{character}' {place}"
  | .tooLarge digits => s!"Invalid integer literal '{digits}' {place}"

/-! ## Parsing -/

/-- What the parser looks for. -/
inductive Expectation where
  | kind (kind : Token.Kind)
  | identifier
  | expression
  deriving DecidableEq, Repr

def Expectation.describe : Expectation → String
  | .kind k => k.describe
  | .identifier => "identifier"
  | .expression => "expression"

/-- Why tokens form no program. -/
inductive ParseError where
  /-- The text cannot be scanned up to the place that the parser has reached. -/
  | scan (error : LexError)
  /-- Another token stands where the expected one should. Lines and columns are counted from one. -/
  | mismatch (expected : Expectation) (found : Token.Kind) (line column : Nat)
  | duplicateProcedure (name : String)
  deriving DecidableEq, Repr

def ParseError.message : ParseError → String
  | scan error => s!"Scan error: {error.message}"
  | mismatch expected found line column =>
    s!"Expected {expected.describe}, found {found.describe} at line {line}, column {column}"
  | duplicateProcedure name => s!"Procedure '{name}' is declared more than once"

/-! ## Execution -/

/-- Why a run cannot go on. -/
inductive RuntimeError where
  | undefinedVariable (name : String)
  | undefinedProcedure (name : String)
  | duplicateProcedure (name : String)
  | arityMismatch (name : String) (expected found : Nat)
  /-- An operator that works on integers met a boolean. -/
  | typeMismatch (op : Operator)
  | divisionByZero
  | invalidInput (line : String)
  | endOfInput (name : String)
  | io (error : IoError)
  deriving DecidableEq, Repr

def RuntimeError.message : RuntimeError → String
  | undefinedVariable name => s!"Undefined variable '{name}'"
  | undefinedProcedure name => s!"Undefined procedure '{name}'"
  | duplicateProcedure name => s!"Procedure '{name}' is declared more than once"
  | arityMismatch name expected found =>
    s!"Procedure '{name}' expected {expected} arguments, got {found}"
  | typeMismatch op => s!"Operator '{op.symbol}' expects integers, got boolean"
  | divisionByZero => "Division by zero"
  | invalidInput line => s!"Invalid integer input '{line}'"
  | endOfInput name => s!"Unexpected end of input while reading '{name}'"
  | io error => s!"I/O error: {error.message}"

/-! ## Compilation -/

/-- Why there is no code for a program. -/
inductive Obstacle where
  /-- There is no code for reading. -/
  | read
  | undefinedProcedure (name : String)
  | arityMismatch (name : String) (expected found : Nat)
  deriving DecidableEq, Repr

def Obstacle.message : Obstacle → String
  | read => "Operation 'read' is not supported by the code generator"
  | undefinedProcedure name => (RuntimeError.undefinedProcedure name).message
  | arityMismatch name expected found => (RuntimeError.arityMismatch name expected found).message

/-- Why the code of a program was not written in full. -/
inductive CompileError where
  | obstacle (obstacle : Obstacle)
  | io (error : IoError)
  deriving DecidableEq, Repr

def CompileError.message : CompileError → String
  | .obstacle o => o.message
  | .io error => s!"Failed to write assembly: {error.message}"

end Blockwork
