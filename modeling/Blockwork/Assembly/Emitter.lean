import Blockwork.Console
import Blockwork.Assembly.Generate

/-!
# Writing assembly

An emitter writes lines to a sink, mints labels, and counts both. Several programs may be compiled
with one emitter, so it remembers the number of the next label.

* `Emitter.emit`, `Emitter.label`: a line is counted once it is written in full.
* `Emitter.play`: takes the steps of a piece of code; `play_append` says that they can be taken in
  parts.
* `Emitter.assemble`: writes a piece of code. The first line that cannot be written ends it.
* `Emitter.compile`: writes the code of a program, from the emitter's next label on.
-/

namespace Blockwork

/-- A sink for lines of assembly. -/
structure Emitter where
  sink : Sink := {}
  nextLabel : Nat := 1
  lines : Nat := 0

namespace Emitter

/-- Writes a line. -/
def emit (e : Emitter) (line : String) : Except IoError Unit × Emitter :=
  match e.sink.write (line ++ "\n") with
  | (.ok (), sink) => (.ok (), { e with sink, lines := e.lines + 1 })
  | (.error error, sink) => (.error error, { e with sink })

/-- Mints a label. Nothing is written. -/
def label (e : Emitter) : Label × Emitter :=
  (.local e.nextLabel, { e with nextLabel := e.nextLabel + 1 })

/-- Ends the output. -/
def close (e : Emitter) : Except IoError Unit :=
  e.sink.flush

/-- Takes the steps of a piece of code in order, up to the first line that cannot be written. -/
def play (e : Emitter) : List Code.Item → Except IoError Unit × Emitter
  | [] => (.ok (), e)
  | .mint :: items => e.label.2.play items
  | .line line :: items =>
    match e.emit line.text with
    | (.ok (), e) => e.play items
    | (.error error, e) => (.error error, e)

theorem play_append (e : Emitter) (a b : List Code.Item) :
    e.play (a ++ b) = match e.play a with
      | (.ok (), e) => e.play b
      | (.error error, e) => (.error error, e) := by
  fun_induction play e a with
  | case1 => rfl
  | case2 e items ih => simpa [play] using ih
  | case3 e line items e' h ih => simpa [play, h] using ih
  | case4 e line items error e' h => simp [play, h]

/-- Writes a piece of code up to the obstacle, if it ends at one. -/
def assemble (e : Emitter) (code : Code) : Except CompileError Unit × Emitter :=
  match e.play code.items with
  | (.error error, e) => (.error (.io error), e)
  | (.ok (), e) =>
    match code.obstacle with
    | none => (.ok (), e)
    | some obstacle => (.error (.obstacle obstacle), e)

/-- Writes the code of a program. -/
def compile (e : Emitter) (p : Program) : Except CompileError Unit × Emitter :=
  e.assemble (p.code e.nextLabel)

end Emitter

end Blockwork
