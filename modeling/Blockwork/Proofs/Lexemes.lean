import Blockwork.Token.Lexer

/-!
# What a lexeme is

The rules for lexemes, without the lexer: which texts spell a kind of token, and which character
must not stand behind such a text because the lexeme would go on with it. A lexeme that follows the
rules is found as a whole, and what is found follows the rules.

* `Keyword.spellings`, `IsName`, `Token.Kind.Spells`: the texts of a kind.
* `Token.Kind.goesOn`, `Token.Kind.Ends`: where a lexeme ends.
* `Solid`: a text that starts with neither a blank nor a comment.
* `lexeme_of_spells`, `lexeme_spells`: from the rules to the lexer and back.
-/

namespace Blockwork

/-! ## The rules -/

/-- The words for a keyword. -/
def Keyword.spellings : Keyword → List String
  | procedure => ["PROCEDURE", "procedure"]
  | word => [word.text]

theorem Keyword.ofWord?_eq_some {word : String} {k : Keyword} :
    ofWord? word = some k ↔ word ∈ k.spellings := by
  constructor
  · intro h
    unfold ofWord? at h
    split at h <;> cases h <;> decide
  · intro h
    cases k <;> simp only [spellings, text, List.mem_cons, List.not_mem_nil, or_false] at h
    case procedure => obtain rfl | rfl := h <;> rfl
    all_goals subst h; rfl

/-- A letter or an underscore, and then letters, digits and underscores. -/
def isIdentifier : List Char → Bool
  | [] => false
  | c :: cs => isWordStart c && cs.all isWordPart

theorem isIdentifier_eq_true {cs : List Char} : isIdentifier cs = true ↔
    ∃ d ds, cs = d :: ds ∧ isWordStart d = true ∧ ∀ e ∈ ds, isWordPart e = true := by
  cases cs with
  | nil => simp [isIdentifier]
  | cons c cs =>
    rw [isIdentifier, Bool.and_eq_true, List.all_eq_true]
    constructor
    · exact fun h => ⟨c, cs, rfl, h⟩
    · rintro ⟨d, ds, heq, h⟩
      cases heq
      exact h

/-- A name is an identifier other than the keywords. -/
def IsName (word : String) : Prop :=
  isIdentifier word.toList = true ∧ Keyword.ofWord? word = none

instance : DecidablePred IsName := fun _ => inferInstanceAs (Decidable (_ ∧ _))

namespace Token.Kind

/-- The texts that a kind of token can have in a source. The value of an integer is that of its
digits, of which there may be leading zeros. -/
def Spells : Kind → List Char → Prop
  | identifier name, text => text = name.toList ∧ IsName name
  | integer value, text => text ≠ [] ∧ (∀ c ∈ text, c.isDigit = true) ∧
      (Nat.ofDigitChars 10 text 0 : Int) = value.toInt
  | keyword word, text => ∃ w ∈ word.spellings, text = w.toList
  | symbol sign, text => text = sign.text.toList
  | endOfInput, text => text = []

/-- A lexeme of a kind would be longer, or start a comment, if the character stood behind it. -/
def goesOn : Kind → Char → Bool
  | identifier _, c | keyword _, c => isWordPart c
  | integer _, c => c.isDigit
  | symbol .less, c => c == '=' || c == '>'
  | symbol .greater, c => c == '='
  | symbol .slash, c => c == '/'
  | symbol _, _ | endOfInput, _ => false

/-- A lexeme of a kind ends in front of a text. -/
def Ends (kind : Kind) (rest : List Char) : Prop :=
  ∀ c ∈ rest.head?, kind.goesOn c = false

end Token.Kind

/-! ## Characters -/

theorem range_of_isAlpha {c : Char} (h : c.isAlpha = true) :
    65 ≤ c.toNat ∧ c.toNat ≤ 90 ∨ 97 ≤ c.toNat ∧ c.toNat ≤ 122 := by
  replace h : (decide (c.val ≥ 'A'.val ∧ c.val ≤ 'Z'.val) ||
      (decide (c.val ≥ 'a'.val) && decide (c.val ≤ 'z'.val))) = true := h
  simp only [Bool.or_eq_true, Bool.and_eq_true, decide_eq_true_eq, ge_iff_le,
    UInt32.le_iff_toNat_le] at h
  exact h

theorem range_of_isDigit {c : Char} (h : c.isDigit = true) : 48 ≤ c.toNat ∧ c.toNat ≤ 57 := by
  replace h : (decide (c.val ≥ '0'.val) && decide (c.val ≤ '9'.val)) = true := h
  simp only [Bool.and_eq_true, decide_eq_true_eq, ge_iff_le, UInt32.le_iff_toNat_le] at h
  exact h

theorem range_of_isWordPart {c : Char} (h : isWordPart c = true) :
    48 ≤ c.toNat ∧ c.toNat ≤ 57 ∨ 65 ≤ c.toNat ∧ c.toNat ≤ 90 ∨ c.toNat = 95 ∨
      97 ≤ c.toNat ∧ c.toNat ≤ 122 := by
  rw [isWordPart, Char.isAlphanum, Bool.or_eq_true, Bool.or_eq_true, beq_iff_eq] at h
  obtain (h | h) | rfl := h
  · exact (range_of_isAlpha h).elim (fun h => .inr (.inl h)) fun h => .inr (.inr (.inr h))
  · exact .inl (range_of_isDigit h)
  · decide

theorem isWordPart_of_isWordStart {c : Char} (h : isWordStart c = true) : isWordPart c = true := by
  rw [isWordStart, Bool.or_eq_true] at h
  rw [isWordPart, Char.isAlphanum, Bool.or_eq_true, Bool.or_eq_true]
  exact h.imp_left .inl

theorem isWordPart_of_isIdentifier {cs : List Char} (h : isIdentifier cs = true) :
    ∀ c ∈ cs, isWordPart c = true := by
  obtain ⟨d, ds, rfl, hd, hds⟩ := isIdentifier_eq_true.1 h
  exact List.forall_mem_cons.2 ⟨isWordPart_of_isWordStart hd, hds⟩

theorem isWordPart_of_isDigit {c : Char} (h : c.isDigit = true) : isWordPart c = true := by
  rw [isWordPart, Char.isAlphanum, h, Bool.or_true, Bool.true_or]

theorem not_isWordStart_of_isDigit {c : Char} (h : c.isDigit = true) : ¬ isWordStart c = true := by
  have hdigit := range_of_isDigit h
  rw [isWordStart, Bool.or_eq_true, beq_iff_eq]
  rintro (h' | rfl)
  · have halpha := range_of_isAlpha h'
    omega
  · revert h
    decide

/-! ## Solid texts -/

/-- A text that starts with neither a blank nor a comment. -/
def Solid (cs : List Char) : Prop :=
  splitGap false cs = ([], cs)

theorem solid_nil : Solid [] := rfl

theorem solid_cons {c : Char} {cs : List Char} :
    Solid (c :: cs) ↔ isBlank c = false ∧ ¬(c = '/' ∧ cs.head? = some '/') := by
  unfold Solid
  rw [splitGap]
  by_cases hcomment : c = '/' ∧ cs.head? = some '/'
  · simp [hcomment]
  · rw [if_neg (by simpa using hcomment)]
    cases hblank : isBlank c <;> simp [hcomment]

theorem not_isBlank_of_isWordPart {c : Char} (h : isWordPart c = true) : isBlank c = false := by
  have hrange := range_of_isWordPart h
  simp only [isBlank, blankRanges, List.any_cons, List.any_nil, Bool.or_false,
    Bool.or_eq_false_iff, Bool.and_eq_false_iff, decide_eq_false_iff_not]
  omega

/-- No gap begins with a letter, a digit or an underscore. -/
theorem solid_of_isWordPart {c : Char} (h : isWordPart c = true) (cs : List Char) :
    Solid (c :: cs) := by
  refine solid_cons.2 ⟨not_isBlank_of_isWordPart h, ?_⟩
  rintro ⟨rfl, -⟩
  revert h
  decide

/-! ## Numbers -/

theorem integer?_of_isDigit {c : Char} (h : c.isDigit = true) (cs : List Char) :
    integer? (c :: cs) = (natural? (c :: cs)).map Int.ofNat := by
  unfold integer?
  split
  next heq => cases heq; exact absurd h (by decide)
  next heq => cases heq; exact absurd h (by decide)
  next => rfl

theorem toWord?_eq_some {n : Int} {value : Int32} : toWord? n = some value ↔ n = value.toInt := by
  constructor
  · intro h
    rw [toWord?] at h
    split at h
    next hrange =>
      cases h
      have hmin : Int32.minValue.toInt = -2 ^ 31 := by decide
      have hmax : Int32.maxValue.toInt = 2 ^ 31 - 1 := by decide
      rw [hmin, hmax] at hrange
      exact (Int32.toInt_ofInt_of_le (by omega) (by omega)).symm
    next => cases h
  · rintro rfl
    exact toWord?_toInt value

/-- Digits without a sign denote their value. -/
theorem readWord?_of_digits {c : Char} {cs : List Char} (h : ∀ d ∈ c :: cs, d.isDigit = true) :
    readWord? (c :: cs) = toWord? (Nat.ofDigitChars 10 (c :: cs) 0) := by
  have hnatural : natural? (c :: cs) = some (Nat.ofDigitChars 10 (c :: cs) 0) := by
    rw [natural?, List.all_eq_true.2 h]
    rfl
  rw [readWord?, integer?_of_isDigit (h c List.mem_cons_self), hnatural]
  rfl

theorem readWord?_digits {c : Char} {cs : List Char} {value : Int32}
    (h : ∀ d ∈ c :: cs, d.isDigit = true) : readWord? (c :: cs) = some value ↔
      (Nat.ofDigitChars 10 (c :: cs) 0 : Int) = value.toInt := by
  rw [readWord?_of_digits h, toWord?_eq_some]

/-! ## Symbols -/

namespace Symbol

theorem ofPair?_eq_some {c d : Char} {sign : Symbol} :
    ofPair? c d = some sign ↔ sign.text.toList = [c, d] := by
  constructor
  · intro h
    unfold ofPair? at h
    split at h <;> cases h <;> rfl
  · intro h
    cases sign <;> simp only [text] at h <;> cases h <;> rfl

theorem ofChar?_eq_some {c : Char} {sign : Symbol} :
    ofChar? c = some sign ↔ sign.text.toList = [c] := by
  constructor
  · intro h
    unfold ofChar? at h
    split at h <;> cases h <;> rfl
  · intro h
    cases sign <;> simp only [text] at h <;> cases h <;> rfl

/-- Behind the character of a symbol, the characters that it goes on with are those that make
another symbol of the two, and the second stroke of a comment. -/
theorem goesOn_eq {c d : Char} {sign : Symbol} (h : sign.text.toList = [c]) :
    (Token.Kind.symbol sign).goesOn d = ((ofPair? c d).isSome || (c == '/' && d == '/')) := by
  cases sign <;> simp only [text] at h
  case less =>
    obtain rfl : c = '<' := by simpa using h.symm
    by_cases heq : d = '='
    · subst heq; rfl
    · by_cases hgt : d = '>'
      · subst hgt; rfl
      · simp [Token.Kind.goesOn, ofPair?, heq, hgt]
  case greater =>
    obtain rfl : c = '>' := by simpa using h.symm
    by_cases heq : d = '='
    · subst heq; rfl
    · simp [Token.Kind.goesOn, ofPair?, heq]
  all_goals cases h <;> rfl

/-- A symbol of one character ends where neither another symbol nor a comment starts with it. -/
theorem ends_iff {c : Char} {sign : Symbol} (h : sign.text.toList = [c]) (rest : List Char) :
    (Token.Kind.symbol sign).Ends rest ↔
      rest.head?.bind (ofPair? c) = none ∧ ¬(c = '/' ∧ rest.head? = some '/') := by
  have hgoes (d : Char) : (Token.Kind.symbol sign).goesOn d = false ↔
      ofPair? c d = none ∧ ¬(c = '/' ∧ d = '/') := by
    rw [goesOn_eq h, Bool.or_eq_false_iff, Option.isSome_eq_false_iff, Option.isNone_iff_eq_none,
      Bool.eq_false_iff, Ne, Bool.and_eq_true, beq_iff_eq, beq_iff_eq]
  cases rest with
  | nil => simp [Token.Kind.Ends]
  | cons d ds => simp [Token.Kind.Ends, hgoes]

/-- Nothing makes a symbol of two characters longer. -/
theorem goesOn_pair {c d : Char} {sign : Symbol} (h : sign.text.toList = [c, d]) (e : Char) :
    (Token.Kind.symbol sign).goesOn e = false := by
  cases sign
  case less | greater | slash => cases h
  all_goals rfl

/-- A symbol has one character or two. -/
theorem text_cases (sign : Symbol) : ∃ c, isBlank c = false ∧ c.isDigit = false ∧
    isWordStart c = false ∧
    (sign.text.toList = [c] ∨ ∃ d, sign.text.toList = [c, d] ∧ c ≠ '/') := by
  cases sign
  case notEqual | lessEqual | greaterEqual =>
    exact ⟨_, by decide, by decide, by decide, .inr ⟨_, rfl, by decide⟩⟩
  all_goals exact ⟨_, by decide, by decide, by decide, .inl rfl⟩

end Symbol

/-! ## From the rules to lexemes -/

section

variable {c : Char} {cs rest : List Char}

/-- A run of characters of a class ends in front of a character that is not in the class. -/
theorem run_ends {p : Char → Bool} (hcs : ∀ d ∈ cs, p d = true)
    (hrest : ∀ d ∈ rest.head?, p d = false) :
    (cs ++ rest).takeWhile p = cs ∧ (cs ++ rest).dropWhile p = rest := by
  rw [List.takeWhile_append_of_pos hcs, List.dropWhile_append_of_pos hcs]
  cases rest with
  | nil => exact ⟨List.append_nil cs, rfl⟩
  | cons d ds =>
    have hd := hrest d rfl
    rw [List.takeWhile_cons_of_neg (by simp [hd]), List.dropWhile_cons_of_neg (by simp [hd])]
    exact ⟨List.append_nil cs, rfl⟩

theorem lexeme_word (hc : isWordStart c = true) (hcs : ∀ d ∈ cs, isWordPart d = true)
    (hrest : ∀ d ∈ rest.head?, isWordPart d = false) : lexeme c (cs ++ rest) =
      ⟨c :: cs, .ok (wordKind (String.ofList (c :: cs))), rest⟩ := by
  obtain ⟨htake, hdrop⟩ := run_ends hcs hrest
  rw [lexeme, if_pos hc]
  simp only [htake, hdrop]

theorem lexeme_digits (h : ∀ d ∈ c :: cs, d.isDigit = true)
    (hrest : ∀ d ∈ rest.head?, d.isDigit = false) :
    lexeme c (cs ++ rest) = ⟨c :: cs, integerKind (c :: cs), rest⟩ := by
  have hc := h c List.mem_cons_self
  obtain ⟨htake, hdrop⟩ := run_ends (fun d hd => h d (List.mem_cons_of_mem c hd)) hrest
  rw [lexeme, if_neg (not_isWordStart_of_isDigit hc), if_pos hc]
  simp only [htake, hdrop]

/-- The lexeme of a word with its kind. -/
theorem lexeme_of_word {word : String} {kind : Token.Kind} (hw : isIdentifier word.toList = true)
    (hkind : wordKind word = kind) (hrest : ∀ d ∈ rest.head?, isWordPart d = false) :
    ∃ d ds, word.toList = d :: ds ∧ Solid (d :: (ds ++ rest)) ∧
      lexeme d (ds ++ rest) = ⟨d :: ds, .ok kind, rest⟩ := by
  obtain ⟨d, ds, htext, hd, hds⟩ := isIdentifier_eq_true.1 hw
  refine ⟨d, ds, htext, solid_of_isWordPart (isWordPart_of_isWordStart hd) _, ?_⟩
  rw [lexeme_word hd hds hrest, ← htext, String.ofList_toList, hkind]

/-- The lexeme of a symbol. -/
theorem lexeme_of_symbol {sign : Symbol} (he : (Token.Kind.symbol sign).Ends rest) :
    ∃ d ds, sign.text.toList = d :: ds ∧ Solid (d :: (ds ++ rest)) ∧
      lexeme d (ds ++ rest) = ⟨d :: ds, .ok (.symbol sign), rest⟩ := by
  obtain ⟨d, hblank, hdigit, hstart, htext | ⟨e, htext, hne⟩⟩ := sign.text_cases
  · obtain ⟨hpair, hslash⟩ := (Symbol.ends_iff htext rest).1 he
    refine ⟨d, [], htext, solid_cons.2 ⟨hblank, hslash⟩, ?_⟩
    rw [List.nil_append, lexeme, if_neg (by simp [hstart]), if_neg (by simp [hdigit])]
    simp only [hpair, Symbol.ofChar?_eq_some.2 htext]
  · refine ⟨d, [e], htext, solid_cons.2 ⟨hblank, fun h => hne h.1⟩, ?_⟩
    have hpair : ([e] ++ rest).head?.bind (Symbol.ofPair? d) = some sign :=
      Symbol.ofPair?_eq_some.2 htext
    rw [lexeme, if_neg (by simp [hstart]), if_neg (by simp [hdigit])]
    simp only [hpair]
    rfl

/-- At the front of a text, a lexeme that ends there is found as a whole. -/
theorem lexeme_of_spells {kind : Token.Kind} {text : List Char} (hkind : kind ≠ .endOfInput)
    (hs : kind.Spells text) (he : kind.Ends rest) :
    ∃ d ds, text = d :: ds ∧ Solid (d :: (ds ++ rest)) ∧
      lexeme d (ds ++ rest) = ⟨d :: ds, .ok kind, rest⟩ := by
  cases kind with
  | identifier name =>
    obtain ⟨rfl, hname, hkeyword⟩ := hs
    exact lexeme_of_word hname (by rw [wordKind, hkeyword]) he
  | integer value =>
    obtain ⟨hne, hdigits, hvalue⟩ := hs
    obtain ⟨d, ds, rfl⟩ := List.exists_cons_of_ne_nil hne
    refine ⟨d, ds, rfl, solid_of_isWordPart (isWordPart_of_isDigit (hdigits d (by simp))) _, ?_⟩
    rw [lexeme_digits hdigits he, integerKind, (readWord?_digits hdigits).2 hvalue]
  | keyword word =>
    obtain ⟨w, hw, rfl⟩ := hs
    have hkeyword := Keyword.ofWord?_eq_some.2 hw
    have hidentifier : isIdentifier w.toList = true := by
      revert w
      cases word <;> decide
    exact lexeme_of_word hidentifier (by rw [wordKind, hkeyword]) he
  | symbol sign =>
    obtain rfl : text = sign.text.toList := hs
    exact lexeme_of_symbol he
  | endOfInput => exact absurd rfl hkind

/-! ## From lexemes to the rules -/

theorem head?_dropWhile {p : Char → Bool} : ∀ d ∈ (cs.dropWhile p).head?, p d = false := by
  intro d hd
  have h := List.head?_dropWhile_not p cs
  rw [Option.mem_def.1 hd] at h
  exact h

theorem wordKind_spells {word : String} (h : isIdentifier word.toList = true) :
    wordKind word ≠ .endOfInput ∧ (wordKind word).Spells word.toList ∧
      ∀ d, (wordKind word).goesOn d = isWordPart d := by
  unfold wordKind
  split
  next keyword hk => exact ⟨nofun, ⟨word, Keyword.ofWord?_eq_some.1 hk, rfl⟩, fun _ => rfl⟩
  next hk => exact ⟨nofun, ⟨rfl, h, hk⟩, fun _ => rfl⟩

theorem integerKind_spells {kind : Token.Kind} (h : ∀ d ∈ c :: cs, d.isDigit = true)
    (hkind : integerKind (c :: cs) = .ok kind) :
    kind ≠ .endOfInput ∧ kind.Spells (c :: cs) ∧ ∀ d, kind.goesOn d = d.isDigit := by
  unfold integerKind at hkind
  split at hkind
  next value hvalue =>
    cases hkind
    exact ⟨nofun, ⟨List.cons_ne_nil _ _, h, (readWord?_digits h).1 hvalue⟩, fun _ => rfl⟩
  next => cases hkind

/-- What is found follows the rules. -/
theorem lexeme_spells {kind : Token.Kind} (h : (lexeme c cs).reading = .ok kind) :
    kind ≠ .endOfInput ∧ kind.Spells (lexeme c cs).text ∧
      (Solid (c :: cs) → kind.Ends (lexeme c cs).rest) := by
  unfold lexeme at h ⊢
  split at h
  next hc =>
    rw [if_pos hc]
    cases h
    have hword : isIdentifier (c :: cs.takeWhile isWordPart) = true :=
      isIdentifier_eq_true.2 ⟨c, _, rfl, hc, List.all_eq_true.1 List.all_takeWhile⟩
    rw [← String.toList_ofList (l := c :: cs.takeWhile isWordPart)] at hword
    obtain ⟨hkind, hs, hgoes⟩ := wordKind_spells hword
    rw [String.toList_ofList] at hs
    exact ⟨hkind, hs, fun _ d hd => (hgoes d).trans (head?_dropWhile d hd)⟩
  next hw =>
    rw [if_neg hw]
    split at h
    next hc =>
      rw [if_pos hc]
      have hdigits : ∀ d ∈ c :: cs.takeWhile Char.isDigit, d.isDigit = true :=
        List.forall_mem_cons.2 ⟨hc, List.all_eq_true.1 List.all_takeWhile⟩
      obtain ⟨hkind, hs, hgoes⟩ := integerKind_spells hdigits h
      exact ⟨hkind, hs, fun _ d hd => (hgoes d).trans (head?_dropWhile d hd)⟩
    next hd =>
      rw [if_neg hd]
      split at h
      next sign hpair =>
        cases h
        obtain ⟨d, hhead, hpair⟩ := Option.bind_eq_some_iff.1 hpair
        obtain ⟨ds, rfl⟩ := List.head?_eq_some_iff.1 hhead
        have htext := Symbol.ofPair?_eq_some.1 hpair
        exact ⟨nofun, htext.symm, fun _ e _ => Symbol.goesOn_pair htext e⟩
      next hpair =>
        split at h
        next sign hsign =>
          cases h
          have htext := Symbol.ofChar?_eq_some.1 hsign
          -- The lexer leaves it to the gap to see that two strokes are no symbols.
          exact ⟨nofun, htext.symm, fun hsolid =>
            (Symbol.ends_iff htext cs).2 ⟨hpair, (solid_cons.1 hsolid).2⟩⟩
        next => cases h

end

end Blockwork
