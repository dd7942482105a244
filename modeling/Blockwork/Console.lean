import Blockwork.Value
import Blockwork.Text.Blank

/-!
# Consoles

A console is where a program reads its input and writes its output, both of them bytes.

* `Sink`: output, possibly limited; `Sink.write` fills a sink up to its limit and then fails.
* `splitLine`: the first line of the input, up to and with its newline.
* `Console.readInteger`: takes one line, whatever is in it, and reads a number from it.
* `Console.display`: writes the text of a value and a newline, and flushes.
-/

namespace Blockwork

/-! ## Output -/

/-- A place for output. -/
structure Sink where
  written : ByteArray := ByteArray.empty
  /-- How many bytes there is room for. -/
  limit : Option Nat := none
  /-- How a write fails that there is no room for. -/
  overflow : IoError := .full
  /-- How a flush fails, if it does. -/
  flushFault : Option IoError := none

namespace Sink

/-- How many more bytes the sink takes of a text of the given size. -/
def room (s : Sink) (size : Nat) : Nat :=
  match s.limit with
  | none => size
  | some limit => min size (limit - s.written.size)

/-- Writes a text. What there is no room for is lost, and then the write fails. -/
def write (s : Sink) (text : String) : Except IoError Unit × Sink :=
  let bytes := text.toUTF8
  let fits := s.room bytes.size
  if fits = bytes.size then (.ok (), { s with written := s.written ++ bytes })
  else (.error s.overflow, { s with written := s.written ++ bytes.extract 0 fits })

/-- Hands on what was written. -/
def flush (s : Sink) : Except IoError Unit :=
  match s.flushFault with
  | some e => .error e
  | none => .ok ()

end Sink

/-! ## Input -/

/-- The first line of the input, with its newline if it has one, and the rest. -/
def splitLine : List UInt8 → List UInt8 × List UInt8
  | [] => ([], [])
  | b :: bs =>
    if b = 10 then ([b], bs)
    else
      let (line, rest) := splitLine bs
      (b :: line, rest)

theorem splitLine_append (bs : List UInt8) : (splitLine bs).1 ++ (splitLine bs).2 = bs := by
  fun_induction splitLine bs <;> simp_all

/-- The number on a line: blanks around it do not count. -/
def readLine (line : List UInt8) : Except RuntimeError Int32 :=
  match String.fromUTF8? ⟨line.toArray⟩ with
  | none => .error (.io .notUtf8)
  | some text =>
    let cs := trim text.toList
    match readWord? cs with
    | some n => .ok n
    | none => .error (.invalidInput (String.ofList cs))

/-! ## Consoles -/

/-- The input that has not been read yet, and the output. -/
structure Console where
  input : List UInt8 := []
  output : Sink := {}

namespace Console

/-- Reads a number for a variable from the next line. The line is used up in any case. -/
def readInteger (c : Console) (name : String) : Except RuntimeError Int32 × Console :=
  match c.input with
  | [] => (.error (.endOfInput name), c)
  | bs => (readLine (splitLine bs).1, { c with input := (splitLine bs).2 })

/-- Shows a value on a line of its own. -/
def display (c : Console) (v : Value) : Except RuntimeError Unit × Console :=
  match c.output.write (v.text ++ "\n") with
  | (.error e, output) => (.error (.io e), { c with output })
  | (.ok (), output) => (output.flush.mapError .io, { c with output })

end Console

end Blockwork
