import Blockwork.Assembly.Emitter
import Blockwork.Execution
import Blockwork.Tool.Failure

/-!
# What can be done with a source text

* `runSource`: runs it.
* `emitSource`: compiles it into a sink.
* `listTokens`: lists its tokens with their places.
-/

namespace Blockwork

/-- How a run went. A run that was cut short has no failure to report. -/
inductive RunResult where
  | finished (environment : Environment)
  | failed (failure : Failure)
  | exhausted

/-- Runs a source text. -/
def runSource (fuel : Nat) (source : String) (console : Console) : RunResult × Console :=
  match Program.parse source with
  | .error e => (.failed (.parsing e), console)
  | .ok p =>
    match p.run fuel console with
    | (.done (), s) => (.finished s.environment, s.console)
    | (.failed e, s) => (.failed (.running e), s.console)
    | (.exhausted, s) => (.exhausted, s.console)

/-- Compiles a source text. -/
def emitSource (source : String) (sink : Sink) : Except Failure Unit × Sink :=
  match Program.parse source with
  | .error e => (.error (.parsing e), sink)
  | .ok p =>
    match ({ sink } : Emitter).compile p with
    | (.error e, emitter) => (.error (.generating e), emitter.sink)
    | (.ok (), emitter) => (emitter.close.mapError .flushing, emitter.sink)

/-- The line for a token in a listing. Columns are counted from one. -/
def Token.listingLine (t : Token) : String :=
  s!"{t.span.line}:{t.span.column + 1} {t.kind.describe}\n"

/-- Writes the lines for tokens. -/
def writeListing (sink : Sink) : List Token → Except IoError Unit × Sink
  | [] => (.ok (), sink)
  | t :: ts =>
    match sink.write t.listingLine with
    | (.ok (), sink) => writeListing sink ts
    | (.error e, sink) => (.error e, sink)

/-- Lists the tokens of a source text. Nothing is written if one of them is faulty. -/
def listTokens (source : String) (sink : Sink) : Except Failure Unit × Sink :=
  match tokenize source with
  | .error e => (.error (.tokenizing e), sink)
  | .ok tokens =>
    match writeListing sink tokens with
    | (.ok (), sink) => (.ok (), sink)
    | (.error e, sink) => (.error (.listing e), sink)

end Blockwork
