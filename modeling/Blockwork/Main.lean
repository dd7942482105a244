import Blockwork.Tool.Session

/-!
# The command line

The outer layer: it reads files and input, prints the report of a session, and sets the exit code.

A run depends only on the lines that it reads, so whenever a run comes to the end of the input that
has arrived, the layer waits for more and runs the program again, showing only what is new.
-/

namespace Blockwork

namespace CommandLine

/-- What the user sees when the words of a command line make no sense. -/
def usage : String :=
  "Usage: [--print-tree] [-v|--verbose] COMMAND\n\n" ++
    "Commands:\n" ++
    "  run SOURCE                       interpret a program, which may read standard input\n" ++
    "  emit SOURCE [-o|--output FILE]   compile a program to MIPS assembly (output.asm)\n" ++
    "  tokens SOURCE                    print the tokens of a program\n"

/-- More levels than fit into memory. -/
def fuel : Nat := 1000000000000

/-- A failure by its number. Numbers may arrive with a minus sign, as 32-bit words. -/
def numbered (code : UInt32) (details : String) : IoError :=
  let number := code.toInt32.toInt.natAbs
  let known := IoError.known.find? fun
    | .system _ n => n = number
    | _ => false
  known.getD (.system details number)

/-- What the operating system says about a failure. -/
def systemError : IO.Error → IoError
  | .noFileOrDirectory _ code details | .permissionDenied _ code details
  | .inappropriateType _ code details | .resourceExhausted _ code details
  | .invalidArgument _ code details | .alreadyExists _ code details
  | .otherError code details | .unsupportedOperation code details
  | .hardwareFault code details => numbered code details
  | e => .system (toString e) 0

/-- An action whose failure is a value. -/
def capture {α : Type} (action : IO α) : IO (Except IoError α) := do
  try
    return .ok (← action)
  catch e =>
    return .error (systemError e)

/-- Whether the program wants a line that has not arrived. -/
def wantsInput (r : Report) : Bool :=
  match r.failure with
  | some (.running (.endOfInput _)) => true
  | _ => false

/-- Waits for input up to the end of a line, or to the end of the input, which the flag tells. -/
partial def readLines (stdin : IO.FS.Stream) (input : ByteArray) : IO (ByteArray × Bool) := do
  let chunk ← stdin.read 65536
  let input := input ++ chunk
  if chunk.isEmpty then return (input, true)
  else if input.data.back? = some 10 then return (input, false)
  else readLines stdin input

/-- Runs a session until it wants no more input. The number is that of the bytes already shown. -/
partial def converse (i : Invocation) (files : Files) (input : ByteArray) (ended : Bool)
    (shown : Nat) : IO (Option Report) := do
  match i.perform fuel files input.toList with
  | none => return none
  | some r =>
    let stdout ← IO.getStdout
    stdout.write (r.stdout.extract shown r.stdout.size)
    stdout.flush
    if wantsInput r && !ended then
      let (input, ended) ← readLines (← IO.getStdin) input
      converse i files input ended r.stdout.size
    else return some r

/-- Shows what a session left to say. -/
def finish (r : Report) : IO UInt32 := do
  IO.eprint r.stderr
  return r.code.toUInt32

/-- Writes the file of a report. The failure to do so counts unless there is another one. -/
def store (r : Report) (file : IO.FS.Handle) (path : String) (bytes : ByteArray) : IO UInt32 := do
  match ← capture (do file.write bytes; file.flush) with
  | .ok () => finish r
  | .error e => finish { r with failure := r.failure.or (some (.writing path e)) }

/-- Carries out an invocation. If its file cannot be opened, the session is repeated without it. -/
def carryOut (i : Invocation) : IO UInt32 := do
  let source ← capture (IO.FS.readBinFile i.command.source)
  let files (created : Except IoError Sink) : Files := ⟨fun _ => source, fun _ => created⟩
  match ← converse i (files (.ok {})) ByteArray.empty false 0 with
  | none => return 1
  | some r =>
    match r.written with
    | none => finish r
    | some (path, bytes) =>
      match ← capture (IO.FS.Handle.mk path .write) with
      | .ok file => store r file path bytes
      | .error e =>
        match i.perform fuel (files (.error e)) [] with
        | none => return 1
        | some r => finish r

end CommandLine

end Blockwork

/-- Does what the words of the command line ask for. -/
def main (words : List String) : IO UInt32 := do
  match Blockwork.Request.ofArguments words with
  | .invoke i => Blockwork.CommandLine.carryOut i
  | .help =>
    IO.print Blockwork.CommandLine.usage
    return 0
  | .misuse =>
    IO.eprint Blockwork.CommandLine.usage
    return 2
