import Blockwork.Text.Decimal

/-!
# Lines of assembly

The code generator writes MIPS assembly in the dialect of the SPIM simulator. A line is a directive,
the definition of a label, or an instruction.

* `Register`, `Label`, `Location`: what instructions refer to.
* `Instruction`, `Line`: the lines, each with its `text`.
-/

namespace Blockwork

/-- The registers that generated code uses. -/
inductive Register where
  /-- Always zero. -/
  | zero
  /-- The value of the expression that was computed last. -/
  | v0
  /-- The argument of a system call. -/
  | a0
  /-- The left operand, or the word one in the test of a condition. -/
  | t0
  /-- The top of the stack. -/
  | sp
  /-- The frame of the routine. -/
  | fp
  /-- Where the routine returns to. -/
  | ra
  deriving DecidableEq, Repr

def Register.text : Register → String
  | zero => "$zero"
  | v0 => "$v0"
  | a0 => "$a0"
  | t0 => "$t0"
  | sp => "$sp"
  | fp => "$fp"
  | ra => "$ra"

/-- A named place in the code or in the data. -/
inductive Label where
  | main
  /-- Where a division by zero goes. -/
  | divisionGuard
  /-- The text of a newline. -/
  | newline
  /-- What the guard prints. -/
  | divisionMessage
  /-- A place inside a routine. -/
  | local (number : Nat)
  | procedure (name : String)
  | variable (name : String)
  deriving DecidableEq, Repr

def Label.text : Label → String
  | main => "main"
  | divisionGuard => "div_by_zero"
  | newline => "newline"
  | divisionMessage => "div_zero_message"
  | .local number => s!"L{number}"
  | procedure name => s!"proc_{name}"
  | .variable name => s!"var_{name}"

/-- A word in memory. -/
inductive Location where
  /-- At a distance from the address in a register. -/
  | relative (offset : Int) (base : Register)
  | labelled (label : Label)
  deriving DecidableEq, Repr

def Location.text : Location → String
  | relative offset base => String.ofList (decimal offset) ++ "(" ++ base.text ++ ")"
  | labelled label => label.text

/-- The instructions that put a result of two registers into a third. -/
inductive Arithmetic where
  | addu | subu | mul | seq | sne | slt | sle | sgt | sge
  deriving DecidableEq, Repr

def Arithmetic.text : Arithmetic → String
  | addu => "addu"
  | subu => "subu"
  | mul => "mul"
  | seq => "seq"
  | sne => "sne"
  | slt => "slt"
  | sle => "sle"
  | sgt => "sgt"
  | sge => "sge"

/-- One instruction. -/
inductive Instruction where
  | loadImmediate (target : Register) (value : Int)
  | loadAddress (target : Register) (label : Label)
  | load (target : Register) (source : Location)
  | store (source : Register) (target : Location)
  | move (target source : Register)
  /-- Makes room on the stack. -/
  | reserve (bytes : Nat)
  /-- Gives back room on the stack. -/
  | release (bytes : Nat)
  | arithmetic (op : Arithmetic) (target left right : Register)
  /-- Puts a quotient into a place that only `quotient` reads. -/
  | divide (left right : Register)
  | quotient (target : Register)
  | branchEqual (left right : Register) (label : Label)
  | branchNotEqual (left right : Register) (label : Label)
  | jump (label : Label)
  | jumpAndLink (label : Label)
  | jumpRegister (register : Register)
  | systemCall
  deriving DecidableEq, Repr

def Instruction.text : Instruction → String
  | loadImmediate target value => s!"li {target.text}, " ++ String.ofList (decimal value)
  | loadAddress target label => s!"la {target.text}, {label.text}"
  | load target source => s!"lw {target.text}, {source.text}"
  | store source target => s!"sw {source.text}, {target.text}"
  | move target source => s!"move {target.text}, {source.text}"
  | reserve bytes => s!"subu $sp, $sp, {bytes}"
  | release bytes => s!"addu $sp, $sp, {bytes}"
  | arithmetic op target left right => s!"{op.text} {target.text}, {left.text}, {right.text}"
  | divide left right => s!"div {left.text}, {right.text}"
  | quotient target => s!"mflo {target.text}"
  | branchEqual left right label => s!"beq {left.text}, {right.text}, {label.text}"
  | branchNotEqual left right label => s!"bne {left.text}, {right.text}, {label.text}"
  | jump label => s!"j {label.text}"
  | jumpAndLink label => s!"jal {label.text}"
  | jumpRegister register => s!"jr {register.text}"
  | systemCall => "syscall"

/-- One line. -/
inductive Line where
  | dataSection
  | textSection
  | global (label : Label)
  /-- A text in memory, closed by a zero byte. -/
  | string (label : Label) (content : String)
  /-- A word in memory. -/
  | word (label : Label) (value : Int)
  | define (label : Label)
  | instruction (instruction : Instruction)
  deriving DecidableEq, Repr

/-- A text between quotes, with newlines written as a backslash and an `n`. -/
def quotedText (content : String) : String :=
  "\"" ++ String.ofList (content.toList.flatMap fun c => if c = '\n' then ['\\', 'n'] else [c]) ++
    "\""

def Line.text : Line → String
  | dataSection => ".data"
  | textSection => ".text"
  | global label => s!".globl {label.text}"
  | string label content => s!"{label.text}: .asciiz " ++ quotedText content
  | word label value => s!"{label.text}: .word " ++ String.ofList (decimal value)
  | define label => s!"{label.text}:"
  | .instruction i => i.text

end Blockwork
