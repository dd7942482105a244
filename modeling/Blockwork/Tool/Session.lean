import Blockwork.Tool.Arguments
import Blockwork.Tool.Directory
import Blockwork.Tool.Source
import Blockwork.Tree.Outline

/-!
# Sessions

A session is one use of the tool: a command line, files and input go in, and a report comes out.

* `Report`: the output, what was shown beside it, the failure and the file that was written.
* `Invocation.perform`: the work of each command. Nothing is written unless the source parses.
* `Directory.session`: a session in a directory, and the directory after it.
-/

namespace Blockwork

/-- What a session leaves behind. -/
structure Report where
  stdout : ByteArray := ByteArray.empty
  /-- What was shown beside the output: the outline of the tree, if it was asked for and the source
  parses. -/
  notes : String := ""
  failure : Option Failure := none
  /-- The file that was created or emptied, and its content. -/
  written : Option (String × ByteArray) := none

namespace Report

def code (r : Report) : Nat :=
  if r.failure.isSome then 1 else 0

def stderr (r : Report) : String :=
  r.notes ++ match r.failure with
    | some failure => failure.report
    | none => ""

/-- Puts a file where its path leads, which may be one of the outputs. -/
def deliver (r : Report) (d : Directory) : Report × Directory :=
  match r.written with
  | none => (r, d)
  | some (path, content) =>
    match d.device? path with
    | some .output => ({ r with stdout := r.stdout ++ content }, d)
    | some .errors => ({ r with notes := r.notes ++ (String.fromUTF8? content).getD "" }, d)
    | _ => (r, d.write path content)

end Report

namespace Invocation

/-- The text of the source file. -/
def readSource (files : Files) (path : String) : Except Failure String :=
  match files.read path with
  | .error e => .error (.reading path e)
  | .ok bytes =>
    match String.fromUTF8? bytes with
    | some source => .ok source
    | none => .error (.reading path .notUtf8)

/-- The outline of a source text that parses, if it is to be shown. -/
def outline (i : Invocation) (source : String) : String :=
  match Program.parse source with
  | .ok p => if i.printTree then outlineText p.tree ++ "\n" else ""
  | .error _ => ""

/-- Runs a source text. There is no report if the run is cut short. -/
def run (i : Invocation) (fuel : Nat) (input : List UInt8) (source : String) : Option Report :=
  let (result, console) := runSource fuel source { input }
  let report : Report := { stdout := console.output.written, notes := i.outline source }
  match result with
  | .finished _ => some report
  | .failed f => some { report with failure := some f }
  | .exhausted => none

/-- Compiles a source text into a file. What was written before a failure stays in the file. -/
def emit (i : Invocation) (files : Files) (path output source : String) : Report :=
  let report : Report := { notes := i.outline source }
  match Program.parse source with
  | .error e => { report with failure := some (.parsing e) }
  | .ok p =>
    match files.create output with
    | .error e => { report with failure := some (.creating output e) }
    | .ok sink =>
      let (result, emitter) := ({ sink } : Emitter).compile p
      let report := { report with written := some (output, emitter.sink.written) }
      match result, emitter.close with
      | .error e, _ => { report with failure := some (.compiling path e) }
      | .ok (), .error e => { report with failure := some (.writing output e) }
      | .ok (), .ok () => report

/-- Lists the tokens of a source text. -/
def tokens (source : String) : Report :=
  match listTokens source {} with
  | (.ok (), sink) => { stdout := sink.written }
  | (.error f, sink) => { stdout := sink.written, failure := some f }

/-- Does the work of a command. -/
def perform (i : Invocation) (fuel : Nat) (files : Files) (input : List UInt8) : Option Report :=
  match readSource files i.command.source with
  | .error f => some { failure := some f }
  | .ok source =>
    match i.command with
    | .run _ => i.run fuel input source
    | .emit path output => some (i.emit files path output source)
    | .tokens _ => some (tokens source)

end Invocation

/-- A session in a directory. If the source is the input itself, a run finds nothing more there. -/
def Directory.session (d : Directory) (i : Invocation) (fuel : Nat) (input : List UInt8) :
    Option (Report × Directory) :=
  let rest := if d.device? i.command.source = some .input then [] else input
  (i.perform fuel (d.files input) rest).map fun r => r.deliver d

end Blockwork
