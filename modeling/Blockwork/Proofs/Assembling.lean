import Blockwork.Proofs.ClosedAssembly
import Blockwork.Proofs.NumberLines

/-!
# Lines read back from assembly

An assembler knows the lines of a program by their texts only. The text of a plain line is that of
no other line: there is a reader that gives the line back. So the lines that a machine is said to
run are those that stand in what is written for a program.

* `Register.read?`, `Arithmetic.read?`, `Label.read?`, `Location.read?`, `Instruction.read?`,
  `Line.read?`: the reader. For each, `read?_text` says that it reads what was written.
* `Line.Legible`: a plain line, and one without a backslash if it is a string.
* `assemble`, `assemble_listing`: the lines of a text.
* `compiled_text_assembles`: what is written for a program is read back as its code.
-/

namespace Blockwork

/-! ## Numbers -/

theorem integer?_decimal (n : Int) : integer? (decimal n) = some n :=
  integer?_eq_some_iff.2 (denotes_decimal n)

theorem natural?_toDigits (n : Nat) : natural? (Nat.toDigits 10 n) = some n :=
  natural?_eq_some_iff.2 ⟨Nat.toDigits_ne_nil,
    fun _ hd => Nat.isDigit_of_mem_toDigits (by decide) (by decide) hd,
    Nat.ofDigitChars_ten_toDigits.symm⟩

/-! ## Operands -/

def Register.read? (w : String) : Option Register :=
  [zero, v0, a0, t0, sp, fp, ra].find? fun r => r.text = w

theorem Register.read?_text (r : Register) : read? r.text = some r := by
  cases r <;> decide

def Arithmetic.read? (w : String) : Option Arithmetic :=
  [addu, subu, mul, seq, sne, slt, sle, sgt, sge].find? fun op => op.text = w

theorem Arithmetic.read?_text (op : Arithmetic) : read? op.text = some op := by
  cases op <;> decide

/-- A label by the letters that its text begins with. -/
def Label.read? (w : String) : Option Label :=
  match w.toList with
  | 'L' :: digits => (natural? digits).map .local
  | 'p' :: 'r' :: 'o' :: 'c' :: '_' :: name => some (.procedure (String.ofList name))
  | 'v' :: 'a' :: 'r' :: '_' :: name => some (.variable (String.ofList name))
  | _ => [main, divisionGuard, newline, divisionMessage].find? fun label => label.text = w

theorem Label.read?_text (label : Label) : read? label.text = some label := by
  rw [read?, toList_text]
  cases label with
  | «local» n => simp [characters, natural?_toDigits]
  | procedure name => simp [characters]
  | «variable» name => simp [characters]
  | _ => decide

/-- A distance and a register in parentheses, or else a label. -/
def Location.read? (w : String) : Option Location :=
  match w.toList.splitOn '(' with
  | [offset, base] => do
    let offset ← integer? offset
    let base ← Register.read? (String.ofList base.dropLast)
    return .relative offset base
  | _ => (Label.read? w).map .labelled

theorem Location.read?_text {location : Location} (h : ∀ label ∈ location.uses, label.Plain) :
    read? location.text = some location := by
  cases location with
  | relative offset base =>
    have hoffset : '(' ∉ decimal offset := fun hc => by
      have h := mem_decimal hc
      revert h
      decide
    have hbase : '(' ∉ base.text.toList ++ [')'] := by cases base <;> decide
    have hw : (relative offset base).text.toList =
        decimal offset ++ '(' :: (base.text.toList ++ [')']) := by
      simp [text]
    rw [read?, hw, List.splitOn_append_cons_self_of_not_mem hoffset,
      List.splitOn_eq_singleton hbase]
    simp [integer?_decimal, Register.read?_text]
  | labelled label =>
    have hlabel : '(' ∉ label.text.toList := fun hc => by
      have h := (h label List.mem_cons_self).characters '(' (label.toList_text ▸ hc)
      revert h
      decide
    rw [read?, show (labelled label).text = label.text from rfl, List.splitOn_eq_singleton hlabel]
    simp [Label.read?_text]

/-! ## Instructions -/

/-- An instruction with three operands that is no branch. If the last of them is a number, then it
makes room on the stack or gives it back. -/
def Instruction.readThree? (op target left right : String) : Option Instruction :=
  match natural? right.toList with
  | some bytes => if op = "subu" then some (.reserve bytes) else some (.release bytes)
  | none => do
    return .arithmetic (← Arithmetic.read? op) (← Register.read? target) (← Register.read? left)
      (← Register.read? right)

/-- An instruction by its opcode and its operands. -/
def Instruction.read? : List String → Option Instruction
  | ["syscall"] => some .systemCall
  | ["j", label] => (Label.read? label).map .jump
  | ["jal", label] => (Label.read? label).map .jumpAndLink
  | ["jr", register] => (Register.read? register).map .jumpRegister
  | ["mflo", target] => (Register.read? target).map .quotient
  | ["li", target, value] => do
    return .loadImmediate (← Register.read? target) (← integer? value.toList)
  | ["la", target, label] => do
    return .loadAddress (← Register.read? target) (← Label.read? label)
  | ["lw", target, source] => do
    return .load (← Register.read? target) (← Location.read? source)
  | ["sw", source, target] => do
    return .store (← Register.read? source) (← Location.read? target)
  | ["move", target, source] => do
    return .move (← Register.read? target) (← Register.read? source)
  | ["div", left, right] => do
    return .divide (← Register.read? left) (← Register.read? right)
  | ["beq", left, right, label] => do
    return .branchEqual (← Register.read? left) (← Register.read? right) (← Label.read? label)
  | ["bne", left, right, label] => do
    return .branchNotEqual (← Register.read? left) (← Register.read? right) (← Label.read? label)
  | [op, target, left, right] => readThree? op target left right
  | _ => none

theorem natural?_register (r : Register) : natural? r.text.toList = none := by
  cases r <;> decide

theorem Instruction.readThree?_text (op : Arithmetic) (target left right : Register) :
    readThree? op.text target.text left.text right.text =
      some (.arithmetic op target left right) := by
  simp [readThree?, natural?_register, Register.read?_text, Arithmetic.read?_text]

theorem Instruction.read?_words {i : Instruction} (h : ∀ label ∈ i.uses, label.Plain) :
    read? i.words = some i := by
  cases i with
  | loadImmediate target value => simp [words, read?, Register.read?_text, integer?_decimal]
  | loadAddress target label => simp [words, read?, Register.read?_text, Label.read?_text]
  | load target source => simp [words, read?, Register.read?_text, Location.read?_text h]
  | store source target => simp [words, read?, Register.read?_text, Location.read?_text h]
  | move target source => simp [words, read?, Register.read?_text]
  | reserve bytes => simp [words, read?, readThree?, natural?_toDigits]
  | release bytes => simp [words, read?, readThree?, natural?_toDigits]
  | arithmetic op target left right =>
    have hthree := readThree?_text op target left right
    cases op <;> exact hthree
  | divide left right => simp [words, read?, Register.read?_text]
  | quotient target => simp [words, read?, Register.read?_text]
  | branchEqual left right label => simp [words, read?, Register.read?_text, Label.read?_text]
  | branchNotEqual left right label => simp [words, read?, Register.read?_text, Label.read?_text]
  | jump label => simp [words, read?, Label.read?_text]
  | jumpAndLink label => simp [words, read?, Label.read?_text]
  | jumpRegister register => simp [words, read?, Register.read?_text]
  | systemCall => rfl

/-! ## Lines -/

/-- The text between quotes, in which a backslash and an `n` stand for a newline. -/
def unquoted : List Char → List Char
  | '\\' :: 'n' :: cs => '\n' :: unquoted cs
  | c :: cs => c :: unquoted cs
  | [] => []

theorem unquoted_flatMap {cs : List Char} (h : '\\' ∉ cs) :
    unquoted (cs.flatMap fun c => if c = '\n' then ['\\', 'n'] else [c]) = cs := by
  induction cs with
  | nil => rfl
  | cons c cs ih =>
    rw [List.mem_cons, not_or] at h
    rw [List.flatMap_cons]
    by_cases hc : c = '\n'
    · rw [if_pos hc, hc]
      exact congrArg ('\n' :: ·) (ih h.2)
    · rw [if_neg hc, List.singleton_append, unquoted, ih h.2]
      rintro _ rfl
      exact absurd rfl h.1

namespace Line

/-- What stands behind the colon of a label. -/
def readBehind? (label : Label) : List Char → Option Line
  | [] => some (.define label)
  | ' ' :: '.' :: 'w' :: 'o' :: 'r' :: 'd' :: ' ' :: value => (integer? value).map (.word label)
  | ' ' :: '.' :: 'a' :: 's' :: 'c' :: 'i' :: 'i' :: 'z' :: ' ' :: '"' :: content =>
    some (.string label (String.ofList (unquoted content.dropLast)))
  | _ => none

/-- A line without an instruction and without a colon. -/
def readDirective? : List String → Option Line
  | [".data"] => some .dataSection
  | [".text"] => some .textSection
  | [".globl", label] => (Label.read? label).map .global
  | _ => none

/-- A line by its text. -/
def read? (line : String) : Option Line :=
  match definedIn line with
  | some label => do
    let label ← Label.read? label
    readBehind? label (line.toList.dropWhile fun c => c ≠ ':').tail
  | none =>
    ((Instruction.read? (wordsOf line)).map .instruction).or (readDirective? (wordsOf line))

/-- A plain line that can be read back: a backslash in a string would be taken for the beginning of
a newline. -/
structure Legible (line : Line) : Prop extends line.Plain where
  content : ∀ label content, line = .string label content → '\\' ∉ content.toList

variable {line : Line}

theorem read?_labelled {label : Label} (h : label.Plain) (rest : String) :
    read? (label.text ++ ":" ++ rest) = readBehind? label rest.toList := by
  have hl : (label.text ++ ":" ++ rest).toList = label.text.toList ++ ':' :: rest.toList := by simp
  have hwithin : ∀ c ∈ label.text.toList, decide (c ≠ ':') = true :=
    fun c hc => decide_eq_true (h.isWord.2 c hc).1
  rw [read?, definedIn_labelled h, hl, List.dropWhile_append_of_pos hwithin,
    List.dropWhile_cons_of_neg (by simp), List.tail_cons]
  simp [Label.read?_text]

theorem read?_words {line : String} (hnone : definedIn line = none) {ws : List String}
    (hws : wordsOf line = ws) :
    read? line = ((Instruction.read? ws).map .instruction).or (readDirective? ws) := by
  rw [read?, hnone, hws]

theorem read?_text (h : line.Legible) : read? line.text = some line := by
  have hnone := definedIn_text h.toPlain
  cases line with
  | dataSection => decide
  | textSection => decide
  | global label =>
    have hlabel := (h.used label List.mem_cons_self).isWord.1
    have hwords : wordsOf (global label).text = [".globl", label.text] := by
      rw [text_global, wordsOf_append (by decide), wordsOf_unbroken hlabel]
    rw [read?_words hnone hwords]
    show (readDirective? [".globl", label.text]) = _
    simp [readDirective?, Label.read?_text]
  | string label content =>
    have hquoted : (" " ++ ".asciiz " ++ quotedText content).toList =
        [' ', '.', 'a', 's', 'c', 'i', 'i', 'z', ' ', '"'] ++
          ((content.toList.flatMap fun c => if c = '\n' then ['\\', 'n'] else [c]) ++ ['"']) := by
      simp [quotedText]
    rw [text_string, read?_labelled (h.defined label rfl), hquoted]
    simp only [List.cons_append, List.nil_append, readBehind?, List.dropLast_concat,
      unquoted_flatMap (h.content label content rfl), String.ofList_toList]
  | word label value =>
    rw [text_word, read?_labelled (h.defined label rfl)]
    simp [readBehind?, integer?_decimal]
  | define label =>
    rw [text_define, read?_labelled (h.defined label rfl)]
    rfl
  | instruction i =>
    have hwords : wordsOf (Line.instruction i).text = i.words := by
      rw [text_instruction, wordsOf_spaced (Instruction.isWord_words h.used)]
    rw [read?_words hnone hwords, Instruction.read?_words h.used]
    rfl

/-- Different lines have different texts, if they can be read back. -/
theorem eq_of_text_eq {line' : Line} (h : line.Legible) (h' : line'.Legible)
    (ht : line.text = line'.text) : line = line' :=
  Option.some.inj ((read?_text h).symm.trans ((congrArg read? ht).trans (read?_text h')))

end Line

/-! ## Texts -/

/-- The lines of a text. -/
def assemble (text : String) : Option (List Line) :=
  (linesOf text).mapM Line.read?

theorem assemble_listing {lines : List Line} (h : ∀ line ∈ lines, line.Legible) :
    assemble (listing lines) = some lines := by
  rw [assemble, linesOf_listing fun line hline => (h line hline).toPlain]
  induction lines with
  | nil => rfl
  | cons line lines ih =>
    obtain ⟨hline, hlines⟩ := List.forall_mem_cons.1 h
    rw [List.map_cons, List.mapM_cons, Line.read?_text hline, ih hlines]
    rfl

namespace Program

variable {p : Program}

/-- The lines of a program whose names are identifiers can be read back. The strings in its data
section have no backslashes. -/
theorem legible_code (hnames : ∀ x ∈ p.names, isIdentifier x.toList = true)
    (hn : (p.environment.procedures.map Procedure.name).Nodup) (first : Nat) :
    ∀ line ∈ (p.code first).lines, line.Legible := by
  intro line hline
  refine ⟨plain_code hnames hn first line hline, ?_⟩
  rintro label content rfl
  rw [lines_code, List.mem_append, List.mem_cons, List.mem_cons] at hline
  obtain hdata | hdirective | hdirective | htext := hline
  · simp only [dataLines, List.mem_append, List.mem_cons, List.mem_map, reduceCtorEq,
      Line.string.injEq, and_false, exists_false, or_false, false_or, List.not_mem_nil] at hdata
    obtain ⟨-, rfl⟩ | ⟨-, rfl⟩ := hdata <;> decide
  · cases hdirective
  · cases hdirective
  · obtain ⟨_, he⟩ | ⟨_, he, -⟩ := p.textCode_uses first _ htext <;> cases he

end Program

/-- What an emitter writes for a program whose names are identifiers is read back as the lines of
its code. -/
theorem compiled_text_assembles {p : Program} {e e' : Emitter}
    (hnames : ∀ x ∈ p.names, isIdentifier x.toList = true)
    (hn : (p.environment.procedures.map Procedure.name).Nodup)
    (h : e.compile p = (.ok (), e')) :
    ∃ text, e'.sink.written = e.sink.written ++ text.toUTF8 ∧
      assemble text = some (p.code e.nextLabel).lines := by
  obtain ⟨-, hwritten⟩ := Emitter.compile_eq_ok h
  exact ⟨_, hwritten, assemble_listing (Program.legible_code hnames hn e.nextLabel)⟩

end Blockwork
