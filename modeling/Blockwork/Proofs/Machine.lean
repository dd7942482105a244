import Mathlib.Logic.Function.Basic
import Mathlib.Logic.Relation
import Blockwork.Assembly.Line

/-!
# The machine that runs the code

The meaning of lines of assembly. The machine has registers, a stack without bounds, and the data
that the lines define. A register or a word of memory holds a 32-bit word or an address; addresses
of the stack, of the code and of the data are different things, and no arithmetic but that of `$sp`
applies to them.

* `Content`, `Machine`: what the machine consists of.
* `Arithmetic.eval`: the arithmetic of words, signed and with wrap-around.
* `Machine.effect`: the instructions that go on to the next line; `Machine.step`: one line.
* `Machine.Starts`, `Machine.Runs`, `Machine.Ends`: a machine at `main` with the data as defined,
  its steps, and the end of its program, of which there is at most one (`Ends.unique`).

A step that has no meaning is not taken: an access that is not aligned, a label that is not defined,
a division by zero, an unknown system call.
-/

namespace Blockwork

/-! ## Words -/

/-- What a register or a word of memory holds. -/
inductive Content where
  | word (value : BitVec 32)
  /-- An address of the stack, in bytes. -/
  | stack (address : Int)
  | code (line : Nat)
  | data (label : Label)
  deriving DecidableEq

/-- The result of two words. The comparisons are signed and yield one or zero. -/
def Arithmetic.eval (op : Arithmetic) (a b : BitVec 32) : BitVec 32 :=
  match op with
  | addu => a + b
  | subu => a - b
  | mul => a * b
  | seq => if a = b then 1 else 0
  | sne => if a ≠ b then 1 else 0
  | slt => if a.toInt < b.toInt then 1 else 0
  | sle => if a.toInt ≤ b.toInt then 1 else 0
  | sgt => if b.toInt < a.toInt then 1 else 0
  | sge => if b.toInt ≤ a.toInt then 1 else 0

/-! ## What lines define -/

/-- The number of the line where a label of the code is defined. -/
def labelLine? (lines : List Line) (label : Label) : Option Nat :=
  lines.findIdx? (· = .define label)

/-- The text under a label. -/
def textAt? (lines : List Line) (label : Label) : Option String :=
  lines.findSome? fun
    | .string l text => if l = label then some text else none
    | _ => none

/-- The initial value of the word under a label. -/
def wordAt? (lines : List Line) (label : Label) : Option (BitVec 32) :=
  lines.findSome? fun
    | .word l value => if l = label then some (.ofInt 32 value) else none
    | _ => none

/-! ## The machine -/

structure Machine where
  /-- The number of the line that comes next. -/
  line : Nat
  registers : Register → Content
  /-- The low word that a division leaves. -/
  quotient : Content
  stack : Int → Content
  /-- The words under labels. -/
  data : Label → Option Content
  output : String := ""
  /-- Set when the program has ended. -/
  exitCode : Option (BitVec 32) := none

namespace Machine

variable (lines : List Line) (m : Machine)

/-- The content of a register. -/
def get (r : Register) : Content :=
  if r = .zero then .word 0 else m.registers r

def set (r : Register) (c : Content) : Machine :=
  { m with registers := Function.update m.registers r c }

/-- Puts a content on the stack. -/
def poke (a : Int) (c : Content) : Machine :=
  { m with stack := Function.update m.stack a c }

/-- Puts a content under a label. -/
def keep (label : Label) (c : Content) : Machine :=
  { m with data := Function.update m.data label (some c) }

/-- Leaves a quotient. -/
def divided (c : Content) : Machine := { m with quotient := c }

def print (text : String) : Machine :=
  { m with output := m.output ++ text }

/-- Goes on at a line. -/
def goto (line : Nat) : Machine := { m with line }

/-- The address of a word on the stack. -/
def address? (offset : Int) (base : Register) : Option Int :=
  match m.get base with
  | .stack a => if 4 ∣ a + offset then some (a + offset) else none
  | _ => none

def read : Location → Option Content
  | .relative offset base => (m.address? offset base).map m.stack
  | .labelled label => m.data label

def write (target : Location) (c : Content) : Option Machine :=
  match target with
  | .relative offset base => (m.address? offset base).map fun a => m.poke a c
  | .labelled label => (m.data label).map fun _ => m.keep label c

/-- Moves `$sp` by a number of bytes. -/
def moveStack (bytes : Int) : Option Machine :=
  match m.get .sp with
  | .stack a => some (m.set .sp (.stack (a + bytes)))
  | _ => none

/-- The system calls that print: an integer or a text. -/
def printCall : Option Machine :=
  match m.get .v0, m.get .a0 with
  | .word 1, .word n => some (m.print (.ofList (decimal n.toInt)))
  | .word 4, .data label => (textAt? lines label).map m.print
  | _, _ => none

/-- The exit code, if a system call here ends the program. -/
def exitCall? : Option (BitVec 32) :=
  match m.get .v0, m.get .a0 with
  | .word 10, _ => some 0
  | .word 17, .word n => some n
  | _, _ => none

/-- What an instruction does that goes on to the next line. -/
def effect : Instruction → Option Machine
  | .loadImmediate target value => some (m.set target (.word (.ofInt 32 value)))
  | .loadAddress target label => some (m.set target (.data label))
  | .load target source => (m.read source).map (m.set target)
  | .store source target => m.write target (m.get source)
  | .move target source => some (m.set target (m.get source))
  | .reserve bytes => m.moveStack (-bytes)
  | .release bytes => m.moveStack bytes
  | .arithmetic op target left right =>
    match m.get left, m.get right with
    | .word a, .word b => some (m.set target (.word (op.eval a b)))
    | _, _ => none
  | .divide left right =>
    match m.get left, m.get right with
    | .word a, .word b => if b = 0 then none else some (m.divided (.word (a.sdiv b)))
    | _, _ => none
  | .quotient target => some (m.set target m.quotient)
  | .systemCall => m.printCall lines
  | .branchEqual .. | .branchNotEqual .. | .jump _ | .jumpAndLink _ | .jumpRegister _ => none

/-- Goes on at a label. -/
def gotoLabel (label : Label) : Option Machine :=
  (labelLine? lines label).map m.goto

/-- Goes on at a label if two words compare as given, and else at the next line. -/
def branch (equal : Bool) (left right : Register) (label : Label) : Option Machine :=
  match m.get left, m.get right with
  | .word a, .word b =>
    if decide (a = b) = equal then m.gotoLabel lines label else some (m.goto (m.line + 1))
  | _, _ => none

/-- One line. Nothing comes after the end of the program. -/
def step : Option Machine :=
  match m.exitCode, lines[m.line]? with
  | none, some (.define _) => some (m.goto (m.line + 1))
  | none, some (.instruction i) =>
    match i with
    | .branchEqual left right label => m.branch lines true left right label
    | .branchNotEqual left right label => m.branch lines false left right label
    | .jump label => m.gotoLabel lines label
    | .jumpAndLink label => (m.set .ra (.code (m.line + 1))).gotoLabel lines label
    | .jumpRegister r =>
      match m.get r with
      | .code line => some (m.goto line)
      | _ => none
    | .systemCall =>
      match m.exitCall? with
      | some code => some { m with exitCode := some code }
      | none => (m.effect lines .systemCall).map fun m' => m'.goto (m.line + 1)
    | i => (m.effect lines i).map fun m' => m'.goto (m.line + 1)
  | _, _ => none

/-- A machine at the start of a program: the data is as the lines say, and `$sp` holds an address.
There may be anything else in the registers and on the stack. -/
structure Starts : Prop where
  line : labelLine? lines .main = some m.line
  sp : ∃ a, m.get .sp = .stack a ∧ 4 ∣ a
  data : ∀ label, m.data label = (wordAt? lines label).map .word
  output : m.output = ""
  running : m.exitCode = none

/-- Any number of steps. -/
def Runs : Machine → Machine → Prop :=
  Relation.ReflTransGen fun m m' => m.step lines = some m'

/-- The program ends, with an exit code. -/
structure Ends (code : BitVec 32) (m' : Machine) : Prop where
  runs : m.Runs lines m'
  exit : m'.exitCode = some code

variable {lines m}

theorem Runs.refl : Runs lines m m := Relation.ReflTransGen.refl

theorem Runs.trans {m' m'' : Machine} (h : Runs lines m m') (h' : Runs lines m' m'') :
    Runs lines m m'' := Relation.ReflTransGen.trans h h'

theorem Runs.single {m' : Machine} (h : m.step lines = some m') : Runs lines m m' :=
  Relation.ReflTransGen.single h

/-! ## What changes change -/

section

variable (r r' : Register) (a : Int) (c : Content) (label : Label) (text : String) (n : Nat)

@[simp] theorem get_zero : m.get .zero = .word 0 := rfl

@[simp] theorem get_set_self (h : r ≠ .zero) : (m.set r c).get r = c := by
  simp [get, set, h]

@[simp] theorem get_set_of_ne (h : r' ≠ r) : (m.set r c).get r' = m.get r' := by
  simp [get, set, Function.update_of_ne h]

@[simp] theorem set_line : (m.set r c).line = m.line := rfl
@[simp] theorem set_quotient : (m.set r c).quotient = m.quotient := rfl
@[simp] theorem set_stack : (m.set r c).stack = m.stack := rfl
@[simp] theorem set_data : (m.set r c).data = m.data := rfl
@[simp] theorem set_output : (m.set r c).output = m.output := rfl
@[simp] theorem set_exitCode : (m.set r c).exitCode = m.exitCode := rfl

@[simp] theorem get_poke : (m.poke a c).get r = m.get r := rfl
@[simp] theorem poke_line : (m.poke a c).line = m.line := rfl
@[simp] theorem poke_stack : (m.poke a c).stack = Function.update m.stack a c := rfl
@[simp] theorem poke_data : (m.poke a c).data = m.data := rfl
@[simp] theorem poke_output : (m.poke a c).output = m.output := rfl
@[simp] theorem poke_exitCode : (m.poke a c).exitCode = m.exitCode := rfl

@[simp] theorem get_keep : (m.keep label c).get r = m.get r := rfl
@[simp] theorem keep_line : (m.keep label c).line = m.line := rfl
@[simp] theorem keep_stack : (m.keep label c).stack = m.stack := rfl
@[simp] theorem keep_data : (m.keep label c).data = Function.update m.data label (some c) := rfl
@[simp] theorem keep_output : (m.keep label c).output = m.output := rfl
@[simp] theorem keep_exitCode : (m.keep label c).exitCode = m.exitCode := rfl

@[simp] theorem get_divided : (m.divided c).get r = m.get r := rfl
@[simp] theorem divided_line : (m.divided c).line = m.line := rfl
@[simp] theorem divided_quotient : (m.divided c).quotient = c := rfl
@[simp] theorem divided_stack : (m.divided c).stack = m.stack := rfl
@[simp] theorem divided_data : (m.divided c).data = m.data := rfl
@[simp] theorem divided_output : (m.divided c).output = m.output := rfl
@[simp] theorem divided_exitCode : (m.divided c).exitCode = m.exitCode := rfl

@[simp] theorem get_print : (m.print text).get r = m.get r := rfl
@[simp] theorem print_line : (m.print text).line = m.line := rfl
@[simp] theorem print_stack : (m.print text).stack = m.stack := rfl
@[simp] theorem print_data : (m.print text).data = m.data := rfl
@[simp] theorem print_output : (m.print text).output = m.output ++ text := rfl
@[simp] theorem print_exitCode : (m.print text).exitCode = m.exitCode := rfl

@[simp] theorem get_goto : (m.goto n).get r = m.get r := rfl
@[simp] theorem goto_line : (m.goto n).line = n := rfl
@[simp] theorem goto_stack : (m.goto n).stack = m.stack := rfl
@[simp] theorem goto_data : (m.goto n).data = m.data := rfl
@[simp] theorem goto_output : (m.goto n).output = m.output := rfl
@[simp] theorem goto_exitCode : (m.goto n).exitCode = m.exitCode := rfl

end

theorem write_keeps {m' : Machine} {target : Location} {c : Content}
    (h : m.write target c = some m') : m'.line = m.line ∧ m'.exitCode = m.exitCode := by
  cases target <;> obtain ⟨_, -, rfl⟩ := Option.map_eq_some_iff.1 h <;> exact ⟨rfl, rfl⟩

theorem moveStack_keeps {m' : Machine} {bytes : Int} (h : m.moveStack bytes = some m') :
    m'.line = m.line ∧ m'.exitCode = m.exitCode := by
  unfold moveStack at h
  split at h
  · cases h; exact ⟨rfl, rfl⟩
  · cases h

theorem printCall_keeps {m' : Machine} (h : m.printCall lines = some m') :
    m'.line = m.line ∧ m'.exitCode = m.exitCode := by
  unfold printCall at h
  split at h
  · cases h; exact ⟨rfl, rfl⟩
  · obtain ⟨_, -, rfl⟩ := Option.map_eq_some_iff.1 h
    exact ⟨rfl, rfl⟩
  · cases h

theorem effect_keeps {m' : Machine} {i : Instruction} (he : m.effect lines i = some m') :
    m'.line = m.line ∧ m'.exitCode = m.exitCode := by
  cases i
  case load => obtain ⟨_, -, rfl⟩ := Option.map_eq_some_iff.1 he; exact ⟨rfl, rfl⟩
  case store => exact write_keeps he
  case reserve => exact moveStack_keeps he
  case release => exact moveStack_keeps he
  case systemCall => exact printCall_keeps he
  case arithmetic =>
    simp only [effect] at he
    split at he
    · cases he; exact ⟨rfl, rfl⟩
    · cases he
  case divide =>
    simp only [effect] at he
    split at he
    · split at he
      · cases he
      · cases he; exact ⟨rfl, rfl⟩
    · cases he
  case branchEqual | branchNotEqual | jump | jumpAndLink | jumpRegister => cases he
  all_goals cases he; exact ⟨rfl, rfl⟩

/-- What an instruction does does not depend on where it stands. -/
theorem effect_goto (n : Nat) (i : Instruction) :
    (m.goto n).effect lines i = (m.effect lines i).map fun m' => m'.goto n := by
  have haddress : ∀ o b, (m.goto n).address? o b = m.address? o b := fun _ _ => rfl
  cases i <;> simp only [effect]
  case load target source =>
    cases source <;> simp only [read, haddress, Option.map_map] <;> rfl
  case store source target =>
    cases target <;> simp only [write, haddress, Option.map_map] <;> rfl
  case reserve | release =>
    simp only [moveStack, get_goto]
    split <;> rfl
  case arithmetic =>
    simp only [get_goto]
    split <;> rfl
  case divide =>
    simp only [get_goto]
    split
    · split <;> rfl
    · rfl
  case systemCall =>
    simp only [printCall, get_goto]
    split <;> simp only [Option.map_some, Option.map_none, Option.map_map] <;> rfl
  all_goals rfl

/-! ## Steps -/

/-- An instruction with an effect goes on to the next line. -/
theorem step_of_effect {m' : Machine} {i : Instruction} (hr : m.exitCode = none)
    (hl : lines[m.line]? = some (.instruction i)) (he : m.effect lines i = some m') :
    m.step lines = some (m'.goto (m.line + 1)) := by
  cases i
  case systemCall =>
    have hx : m.exitCall? = none := by
      simp only [effect, printCall] at he
      unfold exitCall?
      split at he <;> simp_all
    simp only [step, hr, hl, hx, he, Option.map_some]
  case branchEqual | branchNotEqual | jump | jumpAndLink | jumpRegister => cases he
  all_goals simp only [step, hr, hl, he, Option.map_some]

/-- A program ends at most once, and there is one way to its end. -/
theorem Ends.unique {code code' : BitVec 32} {m' m'' : Machine} (h : Ends lines m code m')
    (h' : Ends lines m code' m'') : m' = m'' := by
  have hlast : ∀ {a b c}, a.exitCode = some c → Runs lines a b → a = b := by
    intro a b c hexit hrun
    obtain rfl | ⟨b', hstep, -⟩ := hrun.cases_head
    · rfl
    · simp [step, hexit] at hstep
  have hright : Relator.RightUnique fun a b : Machine => a.step lines = some b :=
    fun a b c hb hc => Option.some.inj (hb.symm.trans hc)
  obtain hrun | hrun := Relation.ReflTransGen.total_of_right_unique hright h.runs h'.runs
  · exact hlast h.exit hrun
  · exact (hlast h'.exit hrun).symm

/-- A system call that ends the program. -/
theorem runs_exitCall {code : BitVec 32} (hr : m.exitCode = none)
    (hl : lines[m.line]? = some (.instruction .systemCall)) (hx : m.exitCall? = some code) :
    Runs lines m { m with exitCode := some code } :=
  .single (by simp only [step, hr, hl, hx])

/-- A defined label takes a step of its own. -/
theorem step_of_define {label : Label} (hr : m.exitCode = none)
    (hl : lines[m.line]? = some (.define label)) : m.step lines = some (m.goto (m.line + 1)) := by
  simp only [step, hr, hl]

/-- What a list of instructions does, one after the other. -/
def effects (lines : List Line) (m : Machine) : List Instruction → Option Machine
  | [] => some m
  | i :: is => (m.effect lines i).bind fun m' => m'.effects lines is

theorem effects_goto (n : Nat) (is : List Instruction) :
    (m.goto n).effects lines is = (m.effects lines is).map fun m' => m'.goto n := by
  induction is generalizing m with
  | nil => rfl
  | cons i is ih =>
    simp only [effects, effect_goto]
    cases m.effect lines i with
    | none => rfl
    | some m' => exact ih

end Machine

end Blockwork
