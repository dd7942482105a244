import Blockwork.Proofs.Labels
import Blockwork.Proofs.Lexemes

/-!
# Emitted assembly is closed

The text that an emitter writes for a program, read as an assembler reads it: line by line, for the
labels that a line defines and uses.

* `linesOf`, `wordsOf`, `definedIn`, `usedIn`: how to read assembly. Nothing in them knows of the
  code generator.
* `Instruction.words`, `Instruction.text_eq`: the text of an instruction is its words.
* `Label.Plain`, `Line.Plain`: labels of names that are identifiers. `Line.definedIn_text`,
  `Line.usedIn_text`: what is read from the text of a plain line is what the line stands for.
* `linesOf_listing`: the lines are found again in the text.
* `ClosedAssembly`: each label is defined once and in its section, the labels that are used are
  defined, and the numbers of labels are those of an interval.
* `compile_emits_closed_assembly`: so it is for what is written for a program.
-/

namespace Blockwork

/-! ## Reading assembly -/

/-- The lines of a text, each of which ends with a newline. -/
def linesOf (text : String) : List String :=
  (text.toList.splitOn '\n').dropLast.map String.ofList

/-- Blanks and commas stand between words. -/
def endsWord (c : Char) : Bool := c = ' ' || c = ','

/-- The words of a line. -/
def wordsOf (line : String) : List String :=
  ((line.toList.splitOnP endsWord).filter fun w => !w.isEmpty).map String.ofList

/-- The label that a line defines: what stands in front of its first colon. -/
def definedIn (line : String) : Option String :=
  if ':' ∈ line.toList then some (String.ofList (line.toList.takeWhile fun c => c ≠ ':')) else none

/-- The label of a variable. -/
def isVariableLabel (label : String) : Bool :=
  ['v', 'a', 'r', '_'].isPrefixOf label.toList

/-- The label of something in the data section. -/
def isDataLabel (label : String) : Bool :=
  isVariableLabel label || label = "newline" || label = "div_zero_message"

/-- The labels that a line uses: the last word of a jump, a branch or `la`, and an operand of `lw`
or `sw` that is the label of a variable. -/
def usedIn (line : String) : List String :=
  match wordsOf line with
  | [] => []
  | opcode :: operands =>
    if opcode ∈ ["j", "bne", "beq", "jal", "la"] then operands.getLast?.toList
    else if opcode ∈ ["lw", "sw"] then operands.filter isVariableLabel
    else []

/-! ## Words -/

/-- A text without blanks and commas. -/
def Unbroken (w : String) : Prop :=
  w.toList ≠ [] ∧ ∀ c ∈ w.toList, endsWord c = false

/-- A word of a line that defines no label. -/
def IsWord (w : String) : Prop :=
  Unbroken w ∧ ∀ c ∈ w.toList, c ≠ ':' ∧ c ≠ '\n'

/-- By going through the characters of the word. -/
instance : DecidablePred Unbroken := fun w =>
  decidable_of_iff (w.toList ≠ [] ∧ w.toList.all (fun c => !endsWord c) = true)
    (by simp [Unbroken])

instance : DecidablePred IsWord := fun w =>
  decidable_of_iff (Unbroken w ∧ w.toList.all (fun c => c ≠ ':' && c ≠ '\n') = true)
    (by simp [IsWord])

theorem Unbroken.isEmpty {w : String} (h : Unbroken w) : w.toList.isEmpty = false :=
  List.isEmpty_eq_false_iff.2 h.1

theorem wordsOf_unbroken {w : String} (h : Unbroken w) : wordsOf w = [w] := by
  rw [wordsOf, List.splitOnP_eq_singleton h.2]
  simp [h.isEmpty]

/-- A word in front of a blank. -/
theorem wordsOf_append {w : String} (h : Unbroken w) (rest : String) :
    wordsOf (w ++ " " ++ rest) = w :: wordsOf rest := by
  have hl : (w ++ " " ++ rest).toList = w.toList ++ ' ' :: rest.toList := by simp
  rw [wordsOf, hl, List.splitOnP_append_cons_of_forall_mem h.2 ' ' rfl]
  simp [h.isEmpty, wordsOf]

/-- A word in front of a comma and a blank. -/
theorem wordsOf_append_comma {w : String} (h : Unbroken w) (rest : String) :
    wordsOf (w ++ ", " ++ rest) = w :: wordsOf rest := by
  have hl : (w ++ ", " ++ rest).toList = w.toList ++ ',' :: ([] ++ ' ' :: rest.toList) := by simp
  rw [wordsOf, hl, List.splitOnP_append_cons_of_forall_mem h.2 ',' rfl,
    List.splitOnP_append_cons_of_forall_mem (by simp) ' ' rfl]
  simp [h.isEmpty, wordsOf]

/-- Operands with commas between them. -/
def withCommas : List String → String
  | [] => ""
  | [w] => w
  | w :: ws => w ++ ", " ++ withCommas ws

/-- An opcode and its operands. -/
def spaced : List String → String
  | [] => ""
  | [w] => w
  | w :: ws => w ++ " " ++ withCommas ws

section Words

variable {ws : List String} (h : ∀ w ∈ ws, IsWord w)
include h

theorem wordsOf_withCommas : wordsOf (withCommas ws) = ws := by
  fun_induction withCommas ws with
  | case1 => rfl
  | case2 w => exact wordsOf_unbroken (h w List.mem_cons_self).1
  | case3 w ws _ ih =>
    obtain ⟨hw, hws⟩ := List.forall_mem_cons.1 h
    rw [wordsOf_append_comma hw.1, ih hws]

theorem wordsOf_spaced : wordsOf (spaced ws) = ws := by
  unfold spaced
  split
  · rfl
  · exact wordsOf_unbroken (h _ List.mem_cons_self).1
  · obtain ⟨hw, hws⟩ := List.forall_mem_cons.1 h
    rw [wordsOf_append hw.1, wordsOf_withCommas hws]

theorem mem_withCommas : ∀ c ∈ (withCommas ws).toList, c ≠ ':' ∧ c ≠ '\n' := by
  fun_induction withCommas ws with
  | case1 => simp
  | case2 w => exact (h w List.mem_cons_self).2
  | case3 w ws _ ih =>
    obtain ⟨hw, hws⟩ := List.forall_mem_cons.1 h
    simp only [String.toList_append, List.forall_mem_append]
    exact ⟨⟨hw.2, by simp⟩, ih hws⟩

theorem mem_spaced : ∀ c ∈ (spaced ws).toList, c ≠ ':' ∧ c ≠ '\n' := by
  unfold spaced
  split
  · simp
  · exact (h _ List.mem_cons_self).2
  · obtain ⟨hw, hws⟩ := List.forall_mem_cons.1 h
    simp only [String.toList_append, List.forall_mem_append]
    exact ⟨⟨hw.2, by simp⟩, mem_withCommas hws⟩

end Words

/-! ## The words of instructions -/

/-- The opcode and the operands. -/
def Instruction.words : Instruction → List String
  | loadImmediate target value => ["li", target.text, String.ofList (decimal value)]
  | loadAddress target label => ["la", target.text, label.text]
  | load target source => ["lw", target.text, source.text]
  | store source target => ["sw", source.text, target.text]
  | move target source => ["move", target.text, source.text]
  | reserve bytes => ["subu", "$sp", "$sp", toString bytes]
  | release bytes => ["addu", "$sp", "$sp", toString bytes]
  | arithmetic op target left right => [op.text, target.text, left.text, right.text]
  | divide left right => ["div", left.text, right.text]
  | quotient target => ["mflo", target.text]
  | branchEqual left right label => ["beq", left.text, right.text, label.text]
  | branchNotEqual left right label => ["bne", left.text, right.text, label.text]
  | jump label => ["j", label.text]
  | jumpAndLink label => ["jal", label.text]
  | jumpRegister register => ["jr", register.text]
  | systemCall => ["syscall"]

theorem Instruction.text_eq (i : Instruction) : i.text = spaced i.words := by
  refine String.toList_inj.1 ?_
  unfold text words
  cases i <;> simp [spaced, withCommas, toString]

/-- A character of a label or of a number. -/
theorem isWordPart_within {c : Char} (h : isWordPart c = true) :
    endsWord c = false ∧ c ≠ ':' ∧ c ≠ '\n' := by
  have hrange := range_of_isWordPart h
  rw [endsWord, Bool.or_eq_false_iff, decide_eq_false_iff_not, decide_eq_false_iff_not]
  refine ⟨⟨?_, ?_⟩, ?_, ?_⟩ <;> rintro rfl <;> revert hrange <;> decide

theorem IsWord.mk {w : String} (hne : w.toList ≠ [])
    (h : ∀ c ∈ w.toList, endsWord c = false ∧ c ≠ ':' ∧ c ≠ '\n') : IsWord w :=
  ⟨⟨hne, fun c hc => (h c hc).1⟩, fun c hc => (h c hc).2⟩

theorem isWordPart_toDigits (n : Nat) : ∀ c ∈ Nat.toDigits 10 n, isWordPart c = true :=
  fun _ hc => isWordPart_of_isDigit (Nat.isDigit_of_mem_toDigits (by decide) (by decide) hc)

theorem mem_decimal {n : Int} {c : Char} (h : c ∈ decimal n) : c = '-' ∨ c.isDigit = true := by
  unfold decimal at h
  split at h
  · exact (List.mem_cons.1 h).imp_right
      (Nat.isDigit_of_mem_toDigits (by decide) (by decide))
  · exact .inr (Nat.isDigit_of_mem_toDigits (by decide) (by decide) h)

theorem decimal_ne_nil (n : Int) : decimal n ≠ [] := by
  unfold decimal
  split
  · exact List.cons_ne_nil _ _
  · exact Nat.toDigits_ne_nil

theorem decimal_within {n : Int} {c : Char} (h : c ∈ decimal n) :
    endsWord c = false ∧ c ≠ ':' ∧ c ≠ '\n' := by
  rcases mem_decimal h with rfl | h
  · decide
  · exact isWordPart_within (isWordPart_of_isDigit h)

/-! ## Plain lines -/

/-- The label of a name that is an identifier, or a label without a name. -/
def Label.Plain : Label → Prop
  | procedure name | .variable name => isIdentifier name.toList = true
  | _ => True

theorem Label.Plain.characters {label : Label} (h : label.Plain) :
    ∀ c ∈ label.characters, isWordPart c = true := by
  have hfixed (word : String) (h : word.toList.all isWordPart = true) :
      ∀ c ∈ word.toList, isWordPart c = true := List.all_eq_true.1 h
  cases label with
  | main => exact hfixed "main" (by decide)
  | divisionGuard => exact hfixed "div_by_zero" (by decide)
  | newline => exact hfixed "newline" (by decide)
  | divisionMessage => exact hfixed "div_zero_message" (by decide)
  | «local» n => exact List.forall_mem_cons.2 ⟨by decide, isWordPart_toDigits n⟩
  | procedure name =>
    show ∀ c ∈ "proc_".toList ++ name.toList, isWordPart c = true
    exact List.forall_mem_append.2 ⟨hfixed _ (by decide), isWordPart_of_isIdentifier h⟩
  | «variable» name =>
    show ∀ c ∈ "var_".toList ++ name.toList, isWordPart c = true
    exact List.forall_mem_append.2 ⟨hfixed _ (by decide), isWordPart_of_isIdentifier h⟩

theorem Label.Plain.isWord {label : Label} (h : label.Plain) : IsWord label.text := by
  refine .mk ?_ fun c hc => isWordPart_within (h.characters c (label.toList_text ▸ hc))
  rw [toList_text]
  cases label <;> simp [Label.characters]

theorem Label.text_local (n : Nat) : (Label.local n).text = "L" ++ toString n := by
  simp [Label.text, toString]

theorem isWord_register (r : Register) : IsWord r.text := by
  cases r <;> decide

theorem isWord_decimal (n : Int) : IsWord (String.ofList (decimal n)) :=
  .mk (by simpa using decimal_ne_nil n) fun _ hc => decimal_within (by simpa using hc)

theorem isWord_nat (n : Nat) : IsWord n.repr := by
  have hl : n.repr.toList = Nat.toDigits 10 n := by simp
  refine .mk ?_ fun c hc => ?_
  · rw [hl]
    exact Nat.toDigits_ne_nil
  · rw [hl] at hc
    exact isWordPart_within (isWordPart_toDigits n c hc)

theorem isWord_location {location : Location} (h : ∀ label ∈ location.uses, label.Plain) :
    IsWord location.text := by
  cases location with
  | relative offset base =>
    have hl : (Location.relative offset base).text.toList =
        decimal offset ++ '(' :: base.text.toList ++ [')'] := by
      simp [Location.text]
    have hbase := isWord_register base
    refine .mk (by simp [hl]) ?_
    rw [hl]
    simp only [List.forall_mem_append, List.forall_mem_cons]
    exact ⟨⟨fun c hc => decimal_within hc, by decide,
      fun c hc => ⟨hbase.1.2 c hc, hbase.2 c hc⟩⟩, by decide, by simp⟩
  | labelled label => exact (h label List.mem_cons_self).isWord

theorem Instruction.isWord_words {i : Instruction} (h : ∀ label ∈ i.uses, label.Plain) :
    ∀ w ∈ i.words, IsWord w := by
  cases i <;> simp [words, isWord_register, isWord_decimal]
  case load target source => exact ⟨by decide, isWord_location h⟩
  case store source target => exact ⟨by decide, isWord_location h⟩
  case reserve bytes => exact ⟨by decide, by decide, isWord_nat bytes⟩
  case release bytes => exact ⟨by decide, by decide, isWord_nat bytes⟩
  case arithmetic op _ _ _ => cases op <;> decide
  case loadAddress | branchEqual | branchNotEqual | jump | jumpAndLink =>
    exact ⟨by decide, (h _ List.mem_cons_self).isWord⟩
  all_goals decide

/-- A line whose names are identifiers. -/
structure Line.Plain (line : Line) : Prop where
  defined : ∀ label ∈ line.label?, label.Plain
  used : ∀ label ∈ line.uses, label.Plain

/-! ## Reading plain lines -/

theorem definedIn_labelled {label : Label} (h : label.Plain) (rest : String) :
    definedIn (label.text ++ ":" ++ rest) = some label.text := by
  have hl : (label.text ++ ":" ++ rest).toList = label.text.toList ++ ':' :: rest.toList := by simp
  have hwithin : ∀ c ∈ label.text.toList, decide (c ≠ ':') = true :=
    fun c hc => decide_eq_true (h.isWord.2 c hc).1
  rw [definedIn, if_pos (by simp), hl, List.takeWhile_append_of_pos hwithin,
    List.takeWhile_cons_of_neg (by simp), List.append_nil, String.ofList_toList]

theorem definedIn_eq_none {line : String} (h : ∀ c ∈ line.toList, c ≠ ':') :
    definedIn line = none :=
  if_neg fun hc => h _ hc rfl

namespace Line

variable {line : Line}

theorem text_define (label : Label) : (define label).text = label.text ++ ":" ++ "" := by
  simp [text, toString]

theorem text_word (label : Label) (value : Int) : (word label value).text =
    label.text ++ ":" ++ (" " ++ ".word " ++ String.ofList (decimal value)) := by
  refine String.toList_inj.1 ?_
  simp [text, toString]

theorem text_string (label : Label) (content : String) : (string label content).text =
    label.text ++ ":" ++ (" " ++ ".asciiz " ++ quotedText content) := by
  refine String.toList_inj.1 ?_
  simp [text, toString]

theorem text_global (label : Label) : (global label).text = ".globl" ++ " " ++ label.text := by
  refine String.toList_inj.1 ?_
  simp [text, toString]

theorem text_instruction (i : Instruction) : (Line.instruction i).text = spaced i.words :=
  i.text_eq

theorem definedIn_text (h : line.Plain) : definedIn line.text = line.label?.map Label.text := by
  cases line with
  | dataSection => decide
  | textSection => decide
  | global label =>
    have hl := (h.used label List.mem_cons_self).isWord
    refine definedIn_eq_none ?_
    rw [text_global]
    simp only [String.toList_append, List.forall_mem_append]
    exact ⟨by simp, fun c hc => (hl.2 c hc).1⟩
  | string label content =>
    rw [text_string]
    exact definedIn_labelled (h.defined label rfl) _
  | word label value =>
    rw [text_word]
    exact definedIn_labelled (h.defined label rfl) _
  | define label =>
    rw [text_define]
    exact definedIn_labelled (h.defined label rfl) _
  | instruction i =>
    refine definedIn_eq_none fun c hc => ?_
    rw [text_instruction] at hc
    exact (mem_spaced (Instruction.isWord_words h.used) c hc).1

theorem newline_not_mem_quotedText (content : String) : '\n' ∉ (quotedText content).toList := by
  simp only [quotedText, String.toList_append, String.toList_ofList, List.mem_append,
    List.mem_flatMap, not_or, not_exists, not_and]
  refine ⟨⟨by decide, fun c _ hc => ?_⟩, by decide⟩
  split at hc
  · revert hc
    decide
  next hne => exact hne (List.mem_singleton.1 hc).symm

/-- The text of a plain line is one line. -/
theorem newline_not_mem_text (h : line.Plain) : '\n' ∉ line.text.toList := by
  cases line with
  | dataSection => decide
  | textSection => decide
  | global label =>
    have hl := (h.used label List.mem_cons_self).isWord
    simp only [text_global, String.toList_append, List.mem_append, not_or]
    exact ⟨by decide, fun hc => (hl.2 _ hc).2 rfl⟩
  | string label content =>
    have hl := (h.defined label rfl).isWord
    simp only [text_string, String.toList_append, List.mem_append, not_or]
    exact ⟨⟨fun hc => (hl.2 _ hc).2 rfl, by decide⟩, by decide,
      newline_not_mem_quotedText content⟩
  | word label value =>
    have hl := (h.defined label rfl).isWord
    simp only [text_word, String.toList_append, String.toList_ofList, List.mem_append, not_or]
    exact ⟨⟨fun hc => (hl.2 _ hc).2 rfl, by decide⟩, by decide,
      fun hc => (decimal_within hc).2.2 rfl⟩
  | define label =>
    have hl := (h.defined label rfl).isWord
    simp only [text_define, String.toList_append, List.mem_append, not_or]
    exact ⟨⟨fun hc => (hl.2 _ hc).2 rfl, by decide⟩, by decide⟩
  | instruction i =>
    rw [text_instruction]
    exact fun hc => (mem_spaced (Instruction.isWord_words h.used) _ hc).2 rfl

end Line

/-- A word with a colon is no opcode. -/
theorem usedIn_of_colon {line w : String} {ws : List String} (hl : wordsOf line = w :: ws)
    (hw : ':' ∈ w.toList) : usedIn line = [] := by
  have hop (opcodes : List String) (h : ∀ x ∈ opcodes, ':' ∉ x.toList) : w ∉ opcodes :=
    fun hm => h w hm hw
  simp only [usedIn, hl]
  rw [if_neg (hop _ (by decide)), if_neg (hop _ (by decide))]

theorem Label.Plain.unbroken {label : Label} (h : label.Plain) : Unbroken (label.text ++ ":") := by
  refine ⟨by simp, ?_⟩
  simp only [String.toList_append, List.forall_mem_append]
  exact ⟨h.isWord.1.2, by simp [endsWord]⟩

theorem isVariableLabel_register (r : Register) : isVariableLabel r.text = false := by
  cases r <;> decide

theorem isVariableLabel_relative (offset : Int) (base : Register) :
    isVariableLabel (Location.relative offset base).text = false := by
  obtain ⟨c, cs, hl⟩ := List.exists_cons_of_ne_nil (decimal_ne_nil offset)
  have hc : c ≠ 'v' := by
    rintro rfl
    have h := mem_decimal (c := 'v') (n := offset) (by rw [hl]; exact List.mem_cons_self)
    revert h
    decide
  simp [isVariableLabel, Location.text, hl, List.isPrefixOf, hc.symm]

/-- A word of an operand that is the label of a variable is one that the operand uses. -/
theorem Location.mem_uses_of_isVariableLabel {location : Location}
    (h : isVariableLabel location.text = true) : ∃ label ∈ location.uses,
      location.text = label.text := by
  cases location with
  | relative offset base => rw [isVariableLabel_relative] at h; cases h
  | labelled label => exact ⟨label, List.mem_cons_self, rfl⟩

/-- A plain instruction uses the labels that are read from its text. -/
theorem Instruction.usedIn_text {i : Instruction} (h : ∀ label ∈ i.uses, label.Plain) {x : String}
    (hx : x ∈ usedIn i.text) : ∃ label ∈ i.uses, x = label.text := by
  rw [usedIn, text_eq, wordsOf_spaced (isWord_words h)] at hx
  cases i <;> simp [words, uses, isVariableLabel_register] at hx ⊢
  case arithmetic op _ _ _ => exact absurd hx.1 (by cases op <;> decide)
  case load target source =>
    obtain ⟨rfl, hv⟩ := hx
    exact Location.mem_uses_of_isVariableLabel hv
  case store source target =>
    obtain ⟨rfl, hv⟩ := hx
    exact Location.mem_uses_of_isVariableLabel hv
  all_goals exact hx

namespace Line

variable {line : Line}

theorem usedIn_text (h : line.Plain) {x : String} (hx : x ∈ usedIn line.text) :
    ∃ label ∈ line.uses, x = label.text := by
  have hcolon (label : Label) (ws : List String)
      (hl : wordsOf line.text = (label.text ++ ":") :: ws) :
      ∃ label ∈ line.uses, x = label.text := by
    rw [usedIn_of_colon hl (by simp)] at hx
    cases hx
  cases line with
  | dataSection =>
    have hnone : usedIn ".data" = [] := by decide
    rw [show dataSection.text = ".data" from rfl, hnone] at hx
    cases hx
  | textSection =>
    have hnone : usedIn ".text" = [] := by decide
    rw [show textSection.text = ".text" from rfl, hnone] at hx
    cases hx
  | global label =>
    rw [text_global, usedIn, wordsOf_append (by decide)] at hx
    simp at hx
  | string label content =>
    have hl := (h.defined label rfl).unbroken
    refine hcolon label (wordsOf (".asciiz " ++ quotedText content)) ?_
    rw [text_string, ← wordsOf_append hl]
    simp only [String.append_assoc]
  | word label value =>
    have hl := (h.defined label rfl).unbroken
    refine hcolon label (wordsOf (".word " ++ String.ofList (decimal value))) ?_
    rw [text_word, ← wordsOf_append hl]
    simp only [String.append_assoc]
  | define label =>
    have hl := (h.defined label rfl).unbroken
    refine hcolon label [] ?_
    rw [text_define, String.append_empty, wordsOf_unbroken hl]
  | instruction i => exact i.usedIn_text h.used hx

/-- Only the directive of a section has its text. -/
theorem text_ne_directive (h : line.Plain) (hline : line ≠ .dataSection ∧ line ≠ .textSection)
    {directive : String} (hd : directive = ".data" ∨ directive = ".text") :
    line.text ≠ directive := by
  intro he
  have hnone : line.label? = none := by
    have hd : definedIn directive = none := by obtain rfl | rfl := hd <;> decide
    rwa [← he, definedIn_text h, Option.map_eq_none_iff] at hd
  have hwords : wordsOf line.text = [directive] := by
    rw [he]
    obtain rfl | rfl := hd <;> decide
  have hne (w : String) (hw : w ≠ ".data" ∧ w ≠ ".text") (ws : List String) :
      w :: ws ≠ [directive] := by
    intro h
    obtain rfl := (List.cons.inj h).1
    exact hd.elim hw.1 hw.2
  cases line with
  | dataSection => exact hline.1 rfl
  | textSection => exact hline.2 rfl
  | global label =>
    rw [text_global, wordsOf_append (by decide)] at hwords
    exact hne _ (by decide) _ hwords
  | string label content => cases hnone
  | word label value => cases hnone
  | define label => cases hnone
  | instruction i =>
    rw [text_instruction, wordsOf_spaced (Instruction.isWord_words h.used)] at hwords
    cases i
    case arithmetic op _ _ _ =>
      have hlength := congrArg List.length hwords
      simp [Instruction.words] at hlength
    all_goals exact hne _ (by decide) _ hwords

end Line

/-! ## Reading plain texts -/

variable {lines : List Line}

theorem linesOf_listing (h : ∀ line ∈ lines, line.Plain) :
    linesOf (listing lines) = lines.map Line.text := by
  induction lines with
  | nil => decide
  | cons line lines ih =>
    obtain ⟨hline, hlines⟩ := List.forall_mem_cons.1 h
    have hl : (listing (line :: lines)).toList =
        line.text.toList ++ '\n' :: (listing lines).toList := by
      simp [listing]
    rw [linesOf, hl,
      List.splitOn_append_cons_self_of_not_mem (Line.newline_not_mem_text hline) _,
      List.dropLast_cons_of_ne_nil (List.splitOn_ne_nil _ _), List.map_cons, String.ofList_toList]
    exact congrArg (line.text :: ·) (ih hlines)

/-- The labels that are read from a plain text are those that its lines define. -/
theorem filterMap_definedIn (h : ∀ line ∈ lines, line.Plain) :
    (lines.map Line.text).filterMap definedIn = (labels lines).map Label.text := by
  rw [labels, List.filterMap_map, List.map_filterMap]
  exact List.filterMap_congr fun line hline => Line.definedIn_text (h line hline)

/-- A label is of the data section by its text or not at all. -/
theorem Label.isDataLabel_text (label : Label) : isDataLabel label.text = true ↔
    label = .newline ∨ label = .divisionMessage ∨ ∃ x, label = .variable x := by
  have hv : isVariableLabel label.text = true ↔ ∃ x, label = .variable x := by
    rw [isVariableLabel, toList_text]
    cases label <;> simp [characters, List.isPrefixOf]
  have hn : label.text = "newline" ↔ label = .newline := text_injective.eq_iff (b := .newline)
  have hm : label.text = "div_zero_message" ↔ label = .divisionMessage :=
    text_injective.eq_iff (b := .divisionMessage)
  simp only [isDataLabel, Bool.or_eq_true, decide_eq_true_eq, hv, hn, hm]
  tauto

/-! ## Closed assembly -/

/-- Each label is defined once and in its section, the labels that are used are defined, and the
numbers of labels are those from one up to another. -/
structure ClosedAssembly (first next : Nat) (lines : List String) : Prop where
  nodup : (lines.filterMap definedIn).Nodup
  closed : ∀ line ∈ lines, ∀ label ∈ usedIn line, label ∈ lines.filterMap definedIn
  sections : ∃ data text, lines = ".data" :: data ++ ".text" :: text ∧
    (∀ line ∈ data ++ text, line ≠ ".data" ∧ line ≠ ".text") ∧
    (∀ label ∈ data.filterMap definedIn, isDataLabel label = true) ∧
    ∀ label ∈ text.filterMap definedIn, isDataLabel label = false
  numbers : ∀ n : Nat, "L" ++ toString n ∈ lines.filterMap definedIn ↔ first ≤ n ∧ n < next

namespace Program

variable {p : Program} {first : Nat}

/-- The names that labels can be made of: those of the variables and of the procedures. -/
def names (p : Program) : List String :=
  p.environment.declared ++ Statement.listReferenced p.tree ++
    p.environment.procedures.flatMap fun q => q.name :: Statement.listReferenced q.body

theorem globalNames_subset_names {x : String} (hx : x ∈ p.globalNames) : x ∈ p.names := by
  simp only [globalNames, mem_sortNames, List.mem_append, List.mem_filter, List.mem_flatMap] at hx
  simp only [names, List.mem_append, List.mem_flatMap, List.mem_cons]
  rcases hx with (⟨hx, -⟩ | hx) | ⟨q, hq, hx⟩
  · exact .inl (.inl hx)
  · exact .inl (.inr hx)
  · exact .inr ⟨q, hq, .inr (List.mem_filter.1 hx).1⟩

section Plain

variable (hnames : ∀ x ∈ p.names, isIdentifier x.toList = true)
include hnames

theorem DataLabel.plain {label : Label} (h : p.DataLabel label) : label.Plain := by
  obtain rfl | rfl | ⟨x, hx, rfl⟩ := h
  · trivial
  · trivial
  · exact hnames x (globalNames_subset_names hx)

theorem CodeLabel.plain {label : Label} (h : p.CodeLabel first label) : label.Plain := by
  obtain rfl | rfl | ⟨q, hq, rfl⟩ | ⟨n, rfl, -⟩ := h
  · trivial
  · trivial
  · refine hnames q.name ?_
    simp only [names, List.mem_append, List.mem_flatMap]
    exact .inr ⟨q, hq, List.mem_cons_self⟩
  · trivial

/-- All lines of a program whose names are identifiers are plain. -/
theorem plain_code (hn : (p.environment.procedures.map Procedure.name).Nodup) (first : Nat) :
    ∀ line ∈ (p.code first).lines, line.Plain := by
  intro line hl
  refine ⟨fun label h => ?_, fun label h => ?_⟩
  · have hm : label ∈ labels (p.code first).lines := List.mem_filterMap.2 ⟨line, hl, h⟩
    exact (mem_labels_code.1 hm).elim (DataLabel.plain hnames) fun hm =>
      CodeLabel.plain hnames ((code_defines hn first).all label hm)
  · exact (uses_code hl h).elim (DataLabel.plain hnames) (CodeLabel.plain hnames)

end Plain

/-- The text of the code of a program is closed. -/
theorem closed_code (hnames : ∀ x ∈ p.names, isIdentifier x.toList = true)
    (hn : (p.environment.procedures.map Procedure.name).Nodup)
    (ho : (p.code first).obstacle = none) :
    ClosedAssembly first (first + p.labelCount) (linesOf (listing (p.code first).lines)) := by
  have hplain := plain_code hnames hn first
  have hmem {label : Label} : label.text ∈ (labels (p.code first).lines).map Label.text ↔
      p.DataLabel label ∨ p.CodeLabel first label := by
    rw [List.mem_map_of_injective Label.text_injective, mem_labels_code,
      mem_definitions_code hn ho]
  rw [linesOf_listing hplain]
  refine ⟨?_, fun line hline x hx => ?_, ?_, fun n => ?_⟩
  · rw [filterMap_definedIn hplain]
    exact List.Pairwise.map _ (fun _ _ hne he => hne (Label.text_injective he))
      (labels_nodup hn first)
  · rw [filterMap_definedIn hplain]
    obtain ⟨l, hl, rfl⟩ := List.mem_map.1 hline
    obtain ⟨label, hu, rfl⟩ := l.usedIn_text (hplain l hl) hx
    exact hmem.2 (uses_code hl hu)
  · obtain ⟨data, text, hl, hsections, hdata, htext⟩ := sections_code hn first
    rw [hl, List.cons_append, List.forall_mem_cons, List.forall_mem_append,
      List.forall_mem_cons] at hplain
    refine ⟨data.map Line.text, text.map Line.text, by simp [hl, Line.text], ?_, ?_, ?_⟩
    · rw [← List.map_append, List.forall_mem_map]
      intro line hline
      have hp : line.Plain :=
        (List.mem_append.1 hline).elim (hplain.2.1 line) (hplain.2.2.2 line)
      exact ⟨line.text_ne_directive hp (hsections line hline) (.inl rfl),
        line.text_ne_directive hp (hsections line hline) (.inr rfl)⟩
    · rw [filterMap_definedIn hplain.2.1, List.forall_mem_map]
      intro label hlabel
      rw [Label.isDataLabel_text]
      obtain h | h | ⟨x, -, h⟩ := hdata label hlabel
      · exact .inl h
      · exact .inr (.inl h)
      · exact .inr (.inr ⟨x, h⟩)
    · rw [filterMap_definedIn hplain.2.2.2, List.forall_mem_map]
      intro label hlabel
      rw [← Bool.not_eq_true, Label.isDataLabel_text]
      obtain rfl | rfl | ⟨q, -, rfl⟩ | ⟨n, rfl, -⟩ := htext label hlabel <;> simp
  · rw [filterMap_definedIn hplain, ← Label.text_local, hmem]
    simp [DataLabel, CodeLabel, Between]

/-- Code defines no label with a smaller number than the first one, also if it ends at an
obstacle. -/
theorem le_of_mem_definedIn (hnames : ∀ x ∈ p.names, isIdentifier x.toList = true)
    (hn : (p.environment.procedures.map Procedure.name).Nodup) {n : Nat}
    (h : "L" ++ toString n ∈
      (linesOf (listing (p.code first).lines)).filterMap definedIn) : first ≤ n := by
  have hplain := plain_code hnames hn first
  rw [linesOf_listing hplain, filterMap_definedIn hplain, ← Label.text_local,
    List.mem_map_of_injective Label.text_injective, mem_labels_code] at h
  rcases h with h | h
  · simp [DataLabel] at h
  · obtain h | h | ⟨q, -, h⟩ | ⟨m, h, hm⟩ := (code_defines hn first).all _ h <;> cases h
    exact hm.1

end Program

theorem Emitter.nextLabel_le_foldl (e : Emitter) (ps : List Program) :
    e.nextLabel ≤ (ps.foldl (fun e p => (e.compile p).2) e).nextLabel := by
  induction ps generalizing e with
  | nil => exact Nat.le_refl _
  | cons p ps ih => exact Nat.le_trans (e.nextLabel_le_compile p) (ih _)

/-- What an emitter writes for a program whose names are identifiers is closed assembly. The numbers
of the labels in it are those from the emitter's counter before up to its counter after. Whatever is
compiled with the emitter after that, and whether or not it can be compiled: what is written then is
the beginning of a text whose labels have numbers from that counter on. -/
theorem compile_emits_closed_assembly {p : Program} {e e' : Emitter}
    (hnames : ∀ x ∈ p.names, isIdentifier x.toList = true)
    (hn : (p.environment.procedures.map Procedure.name).Nodup)
    (h : e.compile p = (.ok (), e')) :
    (∃ text, e'.sink.written = e.sink.written ++ text.toUTF8 ∧
      ClosedAssembly e.nextLabel e'.nextLabel (linesOf text)) ∧
    ∀ (others : List Program) (q : Program),
      (∀ x ∈ q.names, isIdentifier x.toList = true) →
      (q.environment.procedures.map Procedure.name).Nodup →
      let later := others.foldl (fun e q => (e.compile q).2) e'
      ∃ text bytes more, (later.compile q).2.sink.written = later.sink.written ++ bytes ∧
        bytes ++ more = text.toUTF8 ∧
        ∀ n : Nat, "L" ++ toString n ∈ (linesOf text).filterMap definedIn → e'.nextLabel ≤ n := by
  obtain ⟨ho, hwritten⟩ := Emitter.compile_eq_ok h
  refine ⟨⟨_, hwritten, ?_⟩, fun others q hnames' hn' => ?_⟩
  · rw [Emitter.nextLabel_of_compile h, Program.labelCount_code ho]
    exact Program.closed_code hnames hn ho
  · intro later
    obtain ⟨bytes, more, hbytes, hmore⟩ := later.written_compile q
    exact ⟨_, bytes, more, hbytes, hmore, fun n hl =>
      Nat.le_trans (e'.nextLabel_le_foldl others) (Program.le_of_mem_definedIn hnames' hn' hl)⟩

/-! ## A loop, a branch and a procedure -/

/-- A loop around a branch, and a procedure with a branch, a local variable and a global one. -/
def halvingTree : List Statement :=
  [.assign "x" (.number 6),
    .loop (.binary (.variable "x") .greater (.number 0))
      [.branch (.binary (.variable "x") .equal (.number 2)) [.display (.variable "x")]
        [.assign "x" (.call "half" [.variable "x"])]],
    .procedure "half" ["n"] [.assign "q" (.binary (.variable "n") .divide (.number 2)),
      .branch (.binary (.variable "x") .less (.variable "q")) [.assign "half" (.variable "q")] []]]

theorem compile_emits_closed_assembly_halving : ∃ e text,
    ({ nextLabel := 7 } : Emitter).compile ⟨halvingTree, .ofTree halvingTree⟩ = (.ok (), e) ∧
      e.sink.written = text.toUTF8 ∧ ClosedAssembly 7 12 (linesOf text) := by
  obtain ⟨e, he⟩ := Emitter.compile_of_unlimited (e := { nextLabel := 7 })
    (p := ⟨halvingTree, .ofTree halvingTree⟩) rfl (by decide)
  obtain ⟨⟨text, hwritten, hclosed⟩, -⟩ := compile_emits_closed_assembly (by decide) (by decide) he
  have hnext : e.nextLabel = 12 := by
    rw [Emitter.nextLabel_of_compile he]
    decide
  exact ⟨e, text, he, hwritten.trans ByteArray.empty_append, hnext ▸ hclosed⟩

end Blockwork
