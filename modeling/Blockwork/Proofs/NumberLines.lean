import Blockwork.Proofs.InputLines
import Blockwork.Proofs.Lexemes
import Blockwork.Proofs.Truncation

/-!
# Numbers on lines

What a program shows, a program can read: the lines that show some integers, with blanks around the
numbers or without, are read back as these integers. In general a line holds a number if a sign or
none and some digits are all that is on it besides blanks at its two ends.

* `Denotes`: texts of numbers; `readWord?_eq_some_iff` says that these texts and no others are read,
  and `denotes_decimal` that what is shown is one of them.
* `Trimmed`: a text without its outer blanks; `trim_eq_iff`.
* `newline_not_mem_bytes`: no part of another character looks like a newline.
* `FirstLine`, `Console.readInteger_eq_ok_iff`: which lines a number is read from.
* `PaddedNumber`: numbers with blanks around them; `displayAll_numbers` says how they are shown
  without blanks, and `readAll_numbers` how they are read with them.
* `shown_numbers_are_read`: all of it.
-/

namespace Blockwork

/-! ## Texts of numbers -/

/-- A text of digits, with a sign in front of them or none, and the number that it denotes. -/
inductive Denotes : List Char → Int → Prop
  | digits {ds : List Char} (hne : ds ≠ []) (hds : ∀ d ∈ ds, d.isDigit = true) :
    Denotes ds (Nat.ofDigitChars 10 ds 0)
  | plus {ds : List Char} (hne : ds ≠ []) (hds : ∀ d ∈ ds, d.isDigit = true) :
    Denotes ('+' :: ds) (Nat.ofDigitChars 10 ds 0)
  | minus {ds : List Char} (hne : ds ≠ []) (hds : ∀ d ∈ ds, d.isDigit = true) :
    Denotes ('-' :: ds) (-(Nat.ofDigitChars 10 ds 0 : Int))

theorem natural?_eq_some_iff {cs : List Char} {n : Nat} : natural? cs = some n ↔
    cs ≠ [] ∧ (∀ c ∈ cs, c.isDigit = true) ∧ n = Nat.ofDigitChars 10 cs 0 := by
  simp only [natural?, Option.ite_none_right_eq_some, Bool.and_eq_true, Bool.not_eq_true',
    List.isEmpty_eq_false_iff, List.all_eq_true, Option.some.injEq, and_assoc, eq_comm (a := n)]

theorem integer?_eq_some_iff {cs : List Char} {n : Int} : integer? cs = some n ↔ Denotes cs n := by
  constructor
  · intro h
    unfold integer? at h
    split at h <;> obtain ⟨m, hm, rfl⟩ := Option.map_eq_some_iff.1 h <;>
      obtain ⟨hne, hds, rfl⟩ := natural?_eq_some_iff.1 hm
    · exact .plus hne hds
    · exact .minus hne hds
    · exact .digits hne hds
  · rintro (⟨hne, hds⟩ | ⟨hne, hds⟩ | ⟨hne, hds⟩)
    · have hnatural := natural?_eq_some_iff.2 ⟨hne, hds, rfl⟩
      obtain ⟨d, ds, rfl⟩ := List.exists_cons_of_ne_nil hne
      rw [integer?_of_isDigit (hds d List.mem_cons_self), hnatural]
      rfl
    · rw [integer?, natural?_eq_some_iff.2 ⟨hne, hds, rfl⟩]
      rfl
    · rw [integer?, natural?_eq_some_iff.2 ⟨hne, hds, rfl⟩]
      rfl

/-- A text is read as a word exactly if it denotes the value of the word, however many digits it
has. -/
theorem readWord?_eq_some_iff {cs : List Char} {w : Int32} :
    readWord? cs = some w ↔ Denotes cs w.toInt := by
  simp only [readWord?, Option.bind_eq_some_iff, integer?_eq_some_iff, toWord?_eq_some,
    exists_eq_right]

/-- The text of a number denotes it. -/
theorem denotes_decimal (n : Int) : Denotes (decimal n) n := by
  have hne : Nat.toDigits 10 n.natAbs ≠ [] := Nat.toDigits_ne_nil
  have hds : ∀ d ∈ Nat.toDigits 10 n.natAbs, d.isDigit = true := fun d hd =>
    Nat.isDigit_of_mem_toDigits (by decide) (by decide) hd
  have hvalue : Nat.ofDigitChars 10 (Nat.toDigits 10 n.natAbs) 0 = n.natAbs :=
    Nat.ofDigitChars_ten_toDigits
  rw [decimal]
  split
  next hneg =>
    have hminus := Denotes.minus hne hds
    rwa [hvalue, Int.ofNat_natAbs_of_nonpos (by omega), Int.neg_neg] at hminus
  next hpos =>
    have hdigits := Denotes.digits hne hds
    rwa [hvalue, Int.natAbs_of_nonneg (by omega)] at hdigits

/-- No character of a number is a blank. -/
theorem Denotes.not_isBlank {cs : List Char} {n : Int} (h : Denotes cs n) :
    cs ≠ [] ∧ ∀ c ∈ cs, isBlank c = false := by
  have hdigits {ds : List Char} (hds : ∀ d ∈ ds, d.isDigit = true) :
      ∀ d ∈ ds, isBlank d = false := fun d hd =>
    not_isBlank_of_isWordPart (isWordPart_of_isDigit (hds d hd))
  cases h with
  | digits hne hds => exact ⟨hne, hdigits hds⟩
  | plus hne hds => exact ⟨nofun, List.forall_mem_cons.2 ⟨by decide, hdigits hds⟩⟩
  | minus hne hds => exact ⟨nofun, List.forall_mem_cons.2 ⟨by decide, hdigits hds⟩⟩

/-! ## Blanks -/

/-- The second text is the first one without the blanks at its two ends. -/
structure Trimmed (text core : List Char) : Prop where
  around : ∃ before after, text = before ++ core ++ after ∧
    (∀ c ∈ before, isBlank c = true) ∧ ∀ c ∈ after, isBlank c = true
  first : ∀ c ∈ core.head?, isBlank c = false
  last : ∀ c ∈ core.getLast?, isBlank c = false

theorem dropWhile_eq_iff {α : Type} {p : α → Bool} {l rest : List α} : l.dropWhile p = rest ↔
    ∃ before, l = before ++ rest ∧ (∀ x ∈ before, p x = true) ∧ ∀ x ∈ rest.head?, p x = false := by
  constructor
  · rintro rfl
    refine ⟨l.takeWhile p, List.takeWhile_append_dropWhile.symm,
      List.all_eq_true.1 List.all_takeWhile, fun x hx => ?_⟩
    have hhead := List.head?_dropWhile_not p l
    rwa [hx] at hhead
  · rintro ⟨before, rfl, hbefore, hrest⟩
    rw [List.dropWhile_append_of_pos hbefore]
    cases rest with
    | nil => rfl
    | cons x rest => exact List.dropWhile_cons_of_neg (by simpa using hrest x rfl)

theorem trim_eq_iff {text core : List Char} : trim text = core ↔ Trimmed text core := by
  rw [trim, List.reverse_eq_iff, dropWhile_eq_iff]
  constructor
  · rintro ⟨after, hmid, hafter, hlast⟩
    rw [List.reverse_eq_iff, List.reverse_append, List.reverse_reverse, dropWhile_eq_iff] at hmid
    obtain ⟨before, rfl, hbefore, hfirst⟩ := hmid
    refine ⟨⟨before, after.reverse, by simp, hbefore, by simpa using hafter⟩, fun c hc => ?_, ?_⟩
    · exact hfirst c (by rw [List.head?_append, hc]; rfl)
    · simpa using hlast
  · rintro ⟨⟨before, after, rfl, hbefore, hafter⟩, hfirst, hlast⟩
    cases core with
    | nil =>
      have hall : ∀ c ∈ before ++ [] ++ after, isBlank c = true := by
        simpa [or_imp, forall_and] using And.intro hbefore hafter
      refine ⟨[], ?_, nofun, nofun⟩
      rw [dropWhile_eq_iff.2 ⟨_, (List.append_nil _).symm, hall, nofun⟩]
      rfl
    | cons c core =>
      have hmid : (before ++ (c :: core) ++ after).dropWhile isBlank = (c :: core) ++ after :=
        dropWhile_eq_iff.2 ⟨before, List.append_assoc .., hbefore, hfirst⟩
      refine ⟨after.reverse, ?_, by simpa using hafter, by rwa [List.head?_reverse]⟩
      rw [hmid, List.reverse_append]

/-! ## Bytes -/

theorem fromUTF8?_eq_some_iff {bytes : ByteArray} {text : String} :
    String.fromUTF8? bytes = some text ↔ bytes = text.toUTF8 := by
  unfold String.fromUTF8?
  constructor
  · intro h
    split at h
    · cases h
      rfl
    · cases h
  · rintro rfl
    exact dif_pos text.isValidUTF8

theorem bytes_eq_flatMap (text : String) :
    text.toUTF8.data.toList = text.toList.flatMap String.utf8EncodeChar := by
  obtain ⟨cs, rfl⟩ : ∃ cs, text = String.ofList cs := ⟨_, String.ofList_toList.symm⟩
  rw [String.toUTF8, String.toByteArray_ofList, List.utf8Encode, List.toList_data_toByteArray,
    String.toList_ofList]

theorem bytes_append (a b : String) :
    (a ++ b).toUTF8.data.toList = a.toUTF8.data.toList ++ b.toUTF8.data.toList := by
  simp only [bytes_eq_flatMap, String.toList_append, List.flatMap_append]

/-- The byte of the newline stands for nothing else. -/
theorem newline_not_mem_bytes {text : String} (h : '\n' ∉ text.toList) :
    10 ∉ text.toUTF8.data.toList := by
  rw [bytes_eq_flatMap, List.mem_flatMap]
  rintro ⟨c, hc, hbyte⟩
  have hnewline : c = '\n' := by
    have hten : ∃ b ∈ String.utf8EncodeChar c, b.toNat = 10 := ⟨10, hbyte, rfl⟩
    simp only [String.utf8EncodeChar] at hten
    refine Char.toNat_inj.1 (?_ : c.val.toNat = 10)
    grind [UInt8.toNat_ofNat']
  exact h (hnewline ▸ hc)

theorem readLine_eq_ok_iff {line : List UInt8} {n : Int32} : readLine line = .ok n ↔
    ∃ (text : String) (core : List Char), line = text.toUTF8.data.toList ∧
      Trimmed text.toList core ∧ Denotes core n.toInt := by
  simp only [← trim_eq_iff, ← readWord?_eq_some_iff]
  unfold readLine
  constructor
  · intro h
    split at h
    next => cases h
    next text htext =>
      dsimp only at h
      split at h
      next w hw =>
        cases h
        exact ⟨text, _, congrArg (·.data.toList) (fromUTF8?_eq_some_iff.1 htext), rfl, hw⟩
      next => cases h
  · rintro ⟨text, core, rfl, rfl, hw⟩
    have htext : String.fromUTF8? ⟨text.toUTF8.data.toList.toArray⟩ = some text :=
      fromUTF8?_eq_some_iff.2 rfl
    simp only [htext, hw]

/-! ## Lines of an input -/

/-- A first line of an input and what is behind it. It has a newline at its end, or it is all that
there is. -/
inductive FirstLine : List UInt8 → List UInt8 → Prop
  | closed {body rest : List UInt8} (h : 10 ∉ body) : FirstLine (body ++ [10]) rest
  | last {body : List UInt8} (h : 10 ∉ body) : FirstLine body []

theorem FirstLine.splitLine_eq {line rest : List UInt8} (h : FirstLine line rest) :
    splitLine (line ++ rest) = (line, rest) := by
  cases h with
  | closed h =>
    rw [List.append_assoc]
    exact splitLine_closed h rest
  | last h =>
    rw [List.append_nil]
    induction line with
    | nil => rfl
    | cons b line ih =>
      rw [List.mem_cons, not_or] at h
      rw [splitLine, if_neg (Ne.symm h.1), ih h.2]

namespace Console

/-- A read comes to a number exactly if the line holds it. -/
theorem readInteger_eq_ok_iff {line rest : List UInt8} (h : FirstLine line rest) (output : Sink)
    (name : String) (n : Int32) :
    ((⟨line ++ rest, output⟩ : Console).readInteger name).1 = .ok n ↔
      ∃ (text : String) (core : List Char), line = text.toUTF8.data.toList ∧
        Trimmed text.toList core ∧ Denotes core n.toInt := by
  rw [← readLine_eq_ok_iff]
  unfold readInteger
  split
  next hnil =>
    obtain ⟨rfl, -⟩ := List.append_eq_nil_iff.1 hnil
    have hempty : readLine [] = .error (.invalidInput "") := rfl
    rw [hempty]
    exact ⟨nofun, nofun⟩
  next => rw [h.splitLine_eq]

/-- Shows some values, one after the other. -/
def displayAll (c : Console) : List Value → Except RuntimeError Unit × Console
  | [] => (.ok (), c)
  | v :: vs =>
    match c.display v with
    | (.ok (), c) => c.displayAll vs
    | (.error e, c) => (.error e, c)

/-- Reads numbers for some variables, one after the other. -/
def readAll (c : Console) : List String → List (Except RuntimeError Int32) × Console
  | [] => ([], c)
  | name :: names =>
    let (result, c) := c.readInteger name
    let (results, c) := c.readAll names
    (result :: results, c)

/-- A console with a text to read. -/
def ofText (text : String) : Console := { input := text.toUTF8.data.toList }

end Console

/-! ## Numbers with blanks around them -/

/-- A number with other characters before and after it. -/
structure PaddedNumber where
  before : List Char := []
  value : Int32
  after : List Char := []

namespace PaddedNumber

/-- The characters around the number are blanks that end no line. -/
def Proper (n : PaddedNumber) : Prop :=
  ∀ c ∈ n.before ++ n.after, isBlank c = true ∧ c ≠ '\n'

instance (n : PaddedNumber) : Decidable n.Proper :=
  List.decidableBAll (fun c => isBlank c = true ∧ c ≠ '\n') _

/-- The number as it is shown, with what stands before and after it. -/
def text (n : PaddedNumber) : String :=
  String.ofList n.before ++ (Value.integer n.value).text ++ String.ofList n.after

/-- Numbers on lines of their own. -/
def lines : List PaddedNumber → String
  | [] => ""
  | n :: ns => n.text ++ "\n" ++ lines ns

/-- The number alone. -/
def bare (n : PaddedNumber) : PaddedNumber := { value := n.value }

variable {n : PaddedNumber}

theorem toList_text (n : PaddedNumber) :
    n.text.toList = n.before ++ decimal n.value.toInt ++ n.after := by
  simp [text, Value.text]

theorem newline_not_mem_text (h : n.Proper) : '\n' ∉ n.text.toList := by
  have hdecimal : '\n' ∉ decimal n.value.toInt := fun hc =>
    absurd ((denotes_decimal _).not_isBlank.2 _ hc) (by decide)
  obtain ⟨hbefore, hafter⟩ := List.forall_mem_append.1 h
  rw [toList_text, List.mem_append, List.mem_append]
  rintro ((hc | hc) | hc)
  · exact (hbefore _ hc).2 rfl
  · exact hdecimal hc
  · exact (hafter _ hc).2 rfl

theorem trimmed_text (h : n.Proper) :
    Trimmed (n.text ++ "\n").toList (decimal n.value.toInt) where
  around := by
    obtain ⟨hbefore, hafter⟩ := List.forall_mem_append.1 h
    refine ⟨n.before, n.after ++ ['\n'], ?_, fun c hc => (hbefore c hc).1, ?_⟩
    · rw [String.toList_append, toList_text, List.append_assoc _ n.after]
      rfl
    · exact List.forall_mem_append.2 ⟨fun c hc => (hafter c hc).1,
        List.forall_mem_singleton.2 isBlank_newline⟩
  first c hc := (denotes_decimal _).not_isBlank.2 c (List.mem_of_mem_head? hc)
  last c hc := (denotes_decimal _).not_isBlank.2 c (List.mem_of_mem_getLast? hc)

/-- A line with a number is read back. -/
theorem readInteger_text (h : n.Proper) (rest : String) (name : String) :
    (Console.ofText (n.text ++ "\n" ++ rest)).readInteger name = (.ok n.value, .ofText rest) := by
  have hnewline : "\n".toUTF8.data.toList = [10] := rfl
  have hline : readLine (n.text.toUTF8.data.toList ++ [10]) = .ok n.value :=
    readLine_eq_ok_iff.2 ⟨n.text ++ "\n", _, by rw [bytes_append, hnewline], trimmed_text h,
      denotes_decimal _⟩
  have hinput : (n.text ++ "\n" ++ rest).toUTF8.data.toList =
      n.text.toUTF8.data.toList ++ 10 :: rest.toUTF8.data.toList := by
    rw [bytes_append, bytes_append, hnewline, List.append_assoc]
    rfl
  rw [Console.ofText, hinput,
    Console.readInteger_closed (newline_not_mem_bytes (newline_not_mem_text h)), hline]
  rfl

end PaddedNumber

/-- The lines of numbers that are shown have nothing but the numbers on them. -/
theorem displayAll_numbers (numbers : List PaddedNumber) {c : Console}
    (hlimit : c.output.limit = none) (hflush : c.output.flushFault = none) :
    c.displayAll (numbers.map fun n => .integer n.value) =
      (.ok (), { c with output.written := c.output.written ++
        (PaddedNumber.lines (numbers.map PaddedNumber.bare)).toUTF8 }) := by
  induction numbers generalizing c with
  | nil => simp [Console.displayAll, PaddedNumber.lines, String.toUTF8]
  | cons n numbers ih =>
    have htext : n.bare.text = (Value.integer n.value).text := by
      simp [PaddedNumber.text, PaddedNumber.bare]
    have hflushed : c.output.flush = .ok () := by rw [Sink.flush, hflush]
    rw [List.map_cons, Console.displayAll, Console.display_of_unlimited hlimit, hflushed]
    refine (ih (c := { c with output.written :=
      c.output.written ++ ((Value.integer n.value).text ++ "\n").toUTF8 }) hlimit hflush).trans ?_
    rw [List.map_cons, PaddedNumber.lines, htext]
    simp only [String.toUTF8, String.toByteArray_append, ByteArray.append_assoc]

theorem readAll_numbers {numbers : List PaddedNumber} (h : ∀ n ∈ numbers, n.Proper)
    {names : List String} (hnames : names.length = numbers.length) :
    (Console.ofText (PaddedNumber.lines numbers)).readAll names =
      (numbers.map fun n => .ok n.value, Console.ofText "") := by
  induction numbers generalizing names with
  | nil =>
    obtain rfl := List.length_eq_zero_iff.1 hnames
    rfl
  | cons n numbers ih =>
    obtain ⟨hn, hnumbers⟩ := List.forall_mem_cons.1 h
    obtain ⟨name, names, rfl⟩ := List.exists_cons_of_length_eq_add_one hnames
    rw [PaddedNumber.lines, Console.readAll, PaddedNumber.readInteger_text hn]
    dsimp only
    rw [ih hnumbers (Nat.succ.inj hnames)]
    rfl

/-- Integers that were shown are read back, each from its line, also if blanks were put before and
after them, and then the input is at its end. In general a read comes to a number exactly if the
line is a text that, without the blanks at its ends, is a text of this number: one digit or more,
and a sign in front of them or none. -/
theorem shown_numbers_are_read :
    (∀ (numbers : List PaddedNumber) (names : List String) (name : String),
      (∀ n ∈ numbers, n.Proper) → names.length = numbers.length →
      let shown := Console.displayAll {} (numbers.map fun n => .integer n.value)
      let results := Console.readAll (.ofText (PaddedNumber.lines numbers)) names
      shown.1 = .ok () ∧
        shown.2.output.written = (PaddedNumber.lines (numbers.map PaddedNumber.bare)).toUTF8 ∧
        results.1 = (numbers.map fun n => .ok n.value) ∧
        (results.2.readInteger name).1 = .error (.endOfInput name)) ∧
    ∀ (line rest : List UInt8) (output : Sink) (name : String) (n : Int32), FirstLine line rest →
      (((⟨line ++ rest, output⟩ : Console).readInteger name).1 = .ok n ↔
        ∃ (text : String) (core : List Char), line = text.toUTF8.data.toList ∧
          Trimmed text.toList core ∧ Denotes core n.toInt) := by
  refine ⟨fun numbers names name hnumbers hnames => ?_, fun line rest output name n h =>
    Console.readInteger_eq_ok_iff h output name n⟩
  have hshown := displayAll_numbers numbers (c := {}) rfl rfl
  intro shown results
  rw [show shown = _ from hshown, show results = _ from readAll_numbers hnumbers hnames]
  exact ⟨rfl, ByteArray.empty_append, rfl, rfl⟩

/-- The least and the greatest number and zero, with blanks of one byte and of more. -/
def paddedNumbers : List PaddedNumber :=
  [⟨['\t', '\u3000'], Int32.minValue, ['\r']⟩, ⟨[], 0, ['\u0085']⟩,
    ⟨['\u2028'], Int32.maxValue, []⟩]

/-- The three numbers are read back. The bytes of the line are those of a blank that is not in
ASCII, a number with a sign and zeros in front, and a carriage return. -/
theorem shown_numbers_are_read_padded :
    ((Console.ofText (PaddedNumber.lines paddedNumbers)).readAll ["a", "b", "c"]).1 =
        [.ok Int32.minValue, .ok 0, .ok Int32.maxValue] ∧
      FirstLine [194, 160, 43, 48, 48, 55, 13, 10] [57] ∧
      ((⟨[194, 160, 43, 48, 48, 55, 13, 10, 57], {}⟩ : Console).readInteger "d").1 = .ok 7 := by
  obtain ⟨hread, hline⟩ := shown_numbers_are_read
  obtain ⟨-, -, hresults, -⟩ := hread paddedNumbers ["a", "b", "c"] "d" (by decide) rfl
  have hbody : (10 : UInt8) ∉ [194, 160, 43, 48, 48, 55, 13] := by decide
  have hfirst : FirstLine [194, 160, 43, 48, 48, 55, 13, 10] [57] := FirstLine.closed hbody
  exact ⟨hresults, hfirst, (hline _ _ {} "d" 7 hfirst).2 ⟨"\u00a0+007\r\n", ['+', '0', '0', '7'],
    by decide +kernel, trim_eq_iff.1 (by decide +kernel), readWord?_eq_some_iff.1 (by decide)⟩⟩

end Blockwork
