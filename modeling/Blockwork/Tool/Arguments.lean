/-!
# Command lines

A command line names a command and the path of a source file. Two flags may stand before or after
the command, once at each of the two places.

* `Invocation`: what is asked for.
* `Request.ofArguments`: reads the words of a command line.
-/

namespace Blockwork

/-- What is to be done with a source file. -/
inductive Command where
  | run (source : String)
  | emit (source output : String)
  | tokens (source : String)
  deriving DecidableEq, Repr

/-- The path of the source file. -/
def Command.source : Command → String
  | run source | emit source _ | tokens source => source

/-- A command and its flags. -/
structure Invocation where
  command : Command
  /-- Shows the outline of the tree. -/
  printTree : Bool
  /-- Asks for messages about the progress of the work. -/
  verbose : Bool
  deriving DecidableEq, Repr

/-- What a command line asks for. -/
inductive Request where
  | invoke (invocation : Invocation)
  | help
  | misuse
  deriving DecidableEq, Repr

namespace Request

/-- The names of the commands. -/
inductive Name where
  | run | emit | tokens
  deriving DecidableEq, Repr

def Name.ofWord? : String → Option Name
  | "run" => some run
  | "emit" => some emit
  | "tokens" => some tokens
  | _ => none

/-- The flags given at one place. -/
structure Flags where
  printTree : Bool := false
  verbose : Bool := false

/-- What has been read of a command line. -/
structure Draft where
  /-- The flags before the command. -/
  outer : Flags := {}
  name : Option Name := none
  /-- The flags at the current place: after the command, once it has been read. -/
  flags : Flags := {}
  source : Option String := none
  output : Option String := none

/-- Where the assembly goes if no path is given. -/
def defaultOutput : String := "output.asm"

namespace Draft

def setPrintTree (d : Draft) : Option Draft :=
  if d.flags.printTree then none else some { d with flags := { d.flags with printTree := true } }

def setVerbose (d : Draft) : Option Draft :=
  if d.flags.verbose then none else some { d with flags := { d.flags with verbose := true } }

/-- Only `emit` has an output, only one, and its path is not empty. -/
def setOutput (d : Draft) (path : String) : Option Draft :=
  if d.name = some .emit && d.output.isNone && path ≠ "" then some { d with output := some path }
  else none

/-- The first word that is no option is the command, the second one the path of the source. -/
def addWord (d : Draft) (word : String) : Option Draft :=
  match d.name with
  | none => (Name.ofWord? word).map fun name => { d with outer := d.flags, name, flags := {} }
  | some _ => if d.source.isNone && word ≠ "" then some { d with source := some word } else none

/-- The invocation, if nothing is missing. -/
def finish (d : Draft) : Request :=
  match d.name, d.source with
  | some name, some source =>
    let command :=
      match name with
      | .run => .run source
      | .emit => .emit source (d.output.getD defaultOutput)
      | .tokens => .tokens source
    .invoke ⟨command, d.outer.printTree || d.flags.printTree, d.outer.verbose || d.flags.verbose⟩
  | _, _ => .misuse

end Draft

/-- What an option asks for. -/
inductive Effect where
  | draft (draft : Draft)
  /-- The next word is the path of the output. -/
  | expectOutput (draft : Draft)
  | help
  | misuse

def Effect.ofDraft? : Option Draft → Effect
  | some d => .draft d
  | none => .misuse

/-- An option that starts with two dashes; what follows an equals sign is its value. -/
def longOption (d : Draft) (option : List Char) : Effect :=
  let name := String.ofList (option.takeWhile (· ≠ '='))
  let value := (option.dropWhile (· ≠ '=')).tail?.map String.ofList
  match name, value with
  | "print-tree", none => .ofDraft? d.setPrintTree
  | "verbose", none => .ofDraft? d.setVerbose
  | "help", none => .help
  | "output", some path => .ofDraft? (d.setOutput path)
  | "output", none => if d.name = some .emit then .expectOutput d else .misuse
  | _, _ => .misuse

/-- Options of one letter each, after one dash. What follows the letter for the output is its path,
with or without an equals sign between them. -/
def shortOptions (d : Draft) : List Char → Effect
  | [] => .draft d
  | 'v' :: letters =>
    match d.setVerbose with
    | some d => shortOptions d letters
    | none => .misuse
  | 'h' :: _ => .help
  | ['o'] => if d.name = some .emit then .expectOutput d else .misuse
  | 'o' :: '=' :: path => .ofDraft? (d.setOutput (String.ofList path))
  | 'o' :: path => .ofDraft? (d.setOutput (String.ofList path))
  | _ => .misuse

/-- Words that are no options. -/
def addWords (d : Draft) : List String → Request
  | [] => d.finish
  | word :: words =>
    match d.addWord word with
    | some d => addWords d words
    | none => .misuse

/-- A word is an option if it starts with a dash and is longer than that. -/
def isOption (word : String) : Bool :=
  word.startsWith "-" && word ≠ "-"

/-- What a word of the command line asks for. -/
def wordEffect (d : Draft) (word : String) : Effect :=
  match word.toList with
  | '-' :: '-' :: option => longOption d option
  | '-' :: c :: letters => shortOptions d (c :: letters)
  | _ => .ofDraft? (d.addWord word)

/-- The command `help` may name a command to explain. -/
def helpOn : List String → Request
  | [] => .help
  | [topic] => if (Name.ofWord? topic).isSome || topic = "help" then .help else .misuse
  | _ => .misuse

/-- Reads the rest of a command line. After two dashes no word is an option, nor a command. -/
def read (d : Draft) : List String → Request
  | [] => d.finish
  | word :: words =>
    if word = "--" then
      if d.name.isSome then addWords d words else .misuse
    else if word = "help" && d.name.isNone then helpOn words
    else
      match wordEffect d word with
      | .draft d => read d words
      | .help => .help
      | .misuse => .misuse
      | .expectOutput d =>
        match words with
        | [] => .misuse
        | path :: words =>
          if isOption path then .misuse
          else
            match d.setOutput path with
            | some d => read d words
            | none => .misuse

/-- What a command line asks for. -/
def ofArguments (words : List String) : Request :=
  read {} words

end Request

end Blockwork
