import Blockwork.Tree.Parser
import Blockwork.Environment

/-!
# Programs

A program is a tree together with what its names mean at the start. The same program can be run and
compiled any number of times.

* `Recording`: the environment of a program while its text is read. Variables and procedures are
  noted where the parser meets them, and in a procedure the procedure's own names are left out.
* `Program.parse`: the program of a source text; `parseTree`: its tree alone.
-/

namespace Blockwork

/-- A tree and the environment in which it starts. -/
structure Program where
  tree : List Statement
  environment : Environment := {}
  deriving DecidableEq, Repr

/-! ## Recording -/

/-- What is recorded while a text is read. -/
structure Recording where
  environment : Environment := {}
  /-- The own names of the procedure that is being read. They are no variables of the program. -/
  own : List String := []

namespace Recording

/-- Notes a variable, unless the name is the procedure's own. -/
def mention (s : Recording) (name : String) : Recording :=
  if s.own.contains name then s
  else { s with environment := s.environment.declareVariable name }

/-- Notes a procedure, unless there is one of its name. -/
def declare (s : Recording) (p : Procedure) : Except ParseError Recording :=
  match s.environment.declareProcedure p with
  | .ok environment => .ok { s with environment }
  | .error _ => .error (.duplicateProcedure p.name)

/-- Reading with a recording. -/
abbrev Reading := StateT Recording (Except ParseError)

instance : Parser.Recorder Reading where
  mention name := modify fun s => s.mention name
  within own body := do
    modify fun s => { s with own }
    let a ← body
    modify fun s => { s with own := [] }
    return a
  declare p := do
    set (← (← get).declare p)

end Recording

/-! ## Source texts -/

/-- The program of a source text. -/
def Program.parse (source : String) : Except ParseError Program := do
  let scan := (Lexer.ofString source).scan
  Parser.ready scan.finish scan.tokens
  let (tree, s) ← (Parser.program scan.finish scan.tokens : Recording.Reading _).run {}
  return ⟨tree, s.environment⟩

/-- The tree of a source text. -/
def parseTree (source : String) : Except ParseError (List Statement) :=
  (Program.parse source).map Program.tree

end Blockwork
