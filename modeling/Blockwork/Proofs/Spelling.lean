import Blockwork.Proofs.Lexemes
import Blockwork.Proofs.Scanning

/-!
# Tokens and their texts

A token kind that can be found in a text has a text of its own. Written with a blank between each
two of them, the texts of some kinds are scanned to tokens of these kinds again.

* `Token.Kind.Proper`, `AllProper`: the kinds that can be found.
* `Token.Kind.text`, `spell`: texts.
* `text_spec`: at the front of a text, the text of a kind is passed over as a whole.
* `tokenize_spell`: scanning what was spelled.
* `Lexer.proper_of_scan`: only proper kinds are found.
-/

namespace Blockwork

/-! ## Kinds that can be found -/

namespace Token.Kind

/-- The kinds of the tokens before the end of input. -/
def Proper : Kind → Prop
  | identifier name => IsName name
  | integer value => 0 ≤ value
  | keyword _ => True
  | symbol _ => True
  | endOfInput => False

instance : DecidablePred Proper
  | identifier name => inferInstanceAs (Decidable (IsName name))
  | integer value => inferInstanceAs (Decidable (0 ≤ value))
  | keyword _ => .isTrue trivial
  | symbol _ => .isTrue trivial
  | endOfInput => .isFalse id

@[simp] theorem proper_identifier {name : String} : (identifier name).Proper ↔ IsName name :=
  Iff.rfl

@[simp] theorem proper_keyword (word : Keyword) : (keyword word).Proper := trivial

@[simp] theorem proper_symbol (sign : Symbol) : (symbol sign).Proper := trivial

def text : Kind → List Char
  | identifier name => name.toList
  | integer value => decimal value.toInt
  | keyword word => word.text.toList
  | symbol sign => sign.text.toList
  | endOfInput => []

end Token.Kind

/-- All of some kinds can be found in a text. -/
def AllProper (kinds : List Token.Kind) : Prop := ∀ kind ∈ kinds, kind.Proper

instance : DecidablePred AllProper := fun _ => inferInstanceAs (Decidable (∀ _ ∈ _, _))

@[simp] theorem allProper_nil : AllProper [] := List.forall_mem_nil _

@[simp] theorem allProper_cons {kind : Token.Kind} {kinds : List Token.Kind} :
    AllProper (kind :: kinds) ↔ kind.Proper ∧ AllProper kinds := List.forall_mem_cons

@[simp] theorem allProper_append {first second : List Token.Kind} :
    AllProper (first ++ second) ↔ AllProper first ∧ AllProper second := List.forall_mem_append

/-- The texts of some kinds, with a blank before each of them. -/
def spellMore (kinds : List Token.Kind) : List Char :=
  kinds.flatMap fun kind => ' ' :: kind.text

/-- The texts of some kinds, with a blank between each two of them. -/
def spell : List Token.Kind → List Char
  | [] => []
  | kind :: kinds => kind.text ++ spellMore kinds

/-! ## The text of a kind -/

/-- A number that is not negative is what its digits denote. -/
theorem decimal_spells {value : Int32} (h : 0 ≤ value) :
    (Token.Kind.integer value).Spells (decimal value.toInt) := by
  have hpos : 0 ≤ value.toInt := Int32.le_iff_toInt_le.1 h
  obtain ⟨n, hn⟩ := Int.eq_ofNat_of_zero_le hpos
  have hdecimal : decimal value.toInt = Nat.toDigits 10 n := by
    rw [decimal, if_neg (by omega), hn]
    rfl
  rw [hdecimal]
  refine ⟨Nat.toDigits_ne_nil,
    fun d hd => Nat.isDigit_of_mem_toDigits (by decide) (by decide) hd, ?_⟩
  rw [Nat.ofDigitChars_ten_toDigits, hn]

/-- The text of a kind is one of its spellings. -/
theorem Token.Kind.Proper.spells_text {kind : Token.Kind} (h : kind.Proper) :
    kind ≠ .endOfInput ∧ kind.Spells kind.text := by
  cases kind with
  | identifier name => exact ⟨nofun, rfl, h⟩
  | integer value => exact ⟨nofun, decimal_spells h⟩
  | keyword word => exact ⟨nofun, word.text, by cases word <;> decide, rfl⟩
  | symbol sign => exact ⟨nofun, rfl⟩
  | endOfInput => exact absurd h id

/-- Only kinds that can be found have spellings. -/
theorem Token.Kind.Spells.proper {kind : Token.Kind} {text : List Char} (h : kind.Spells text)
    (hkind : kind ≠ .endOfInput) : kind.Proper := by
  cases kind with
  | identifier name => exact h.2
  | integer value =>
    show 0 ≤ value
    rw [Int32.le_iff_toInt_le, ← h.2.2]
    exact Int.natCast_nonneg _
  | keyword word => trivial
  | symbol sign => trivial
  | endOfInput => exact absurd rfl hkind

/-- What can stand behind the text of a kind. -/
def Separates (rest : List Char) : Prop :=
  rest = [] ∨ ∃ more, rest = ' ' :: more

theorem separates_spellMore (kinds : List Token.Kind) : Separates (spellMore kinds) := by
  cases kinds with
  | nil => exact .inl rfl
  | cons kind kinds => exact .inr ⟨_, rfl⟩

theorem Separates.ends {rest : List Char} (h : Separates rest) (kind : Token.Kind) :
    kind.Ends rest := by
  rintro c hc
  obtain rfl | ⟨more, rfl⟩ := h
  · cases hc
  · cases hc
    cases kind with
    | symbol sign => cases sign <;> rfl
    | _ => rfl

/-- At the front of a text, the text of a kind is passed over as a whole. -/
theorem text_spec {rest : List Char} (hrest : Separates rest) {kind : Token.Kind}
    (hkind : kind.Proper) : ∃ c cs, kind.text = c :: cs ∧
      splitGap false (c :: (cs ++ rest)) = ([], c :: (cs ++ rest)) ∧
      lexeme c (cs ++ rest) = ⟨c :: cs, .ok kind, rest⟩ :=
  lexeme_of_spells hkind.spells_text.1 hkind.spells_text.2 (hrest.ends kind)

/-! ## Scanning what was spelled -/

theorem splitGap_spellMore {kind : Token.Kind} (hkind : kind.Proper) (kinds : List Token.Kind) :
    (splitGap false (spellMore (kind :: kinds))).2 = spell (kind :: kinds) := by
  obtain ⟨c, cs, htext, hgap, -⟩ := text_spec (separates_spellMore kinds) hkind
  have hmore : spellMore (kind :: kinds) = ' ' :: c :: (cs ++ spellMore kinds) := by
    rw [spellMore, List.flatMap_cons, htext]
    rfl
  rw [hmore, splitGap, if_neg (by simp), if_pos (by decide), hgap, spell, htext]
  rfl

theorem splitGap_spell {kinds : List Token.Kind} (h : AllProper kinds) :
    (splitGap false (spell kinds)).2 = spell kinds := by
  cases kinds with
  | nil => rfl
  | cons kind kinds =>
    obtain ⟨c, cs, htext, hgap, -⟩ := text_spec (separates_spellMore kinds) (allProper_cons.1 h).1
    rw [spell, htext, List.cons_append, hgap]

namespace Lexer

variable {l : Lexer}

theorem scan_spell {kinds : List Token.Kind} (h : AllProper kinds)
    (hended : l.ended = false) (hl : (splitGap false l.rest).2 = spell kinds) :
    l.scan.tokens.map Token.kind = kinds ∧
      ∃ last, l.scan.finish = .ok last ∧ last.kind = .endOfInput := by
  induction kinds generalizing l with
  | nil =>
    obtain ⟨t, hnext, hkind, hlast⟩ := next_of_nil hl
    rw [scan_last hnext hlast]
    exact ⟨rfl, t, rfl, hkind⟩
  | cons kind kinds ih =>
    obtain ⟨hkind, hkinds⟩ := allProper_cons.1 h
    obtain ⟨c, cs, htext, -, hlexeme⟩ := text_spec (separates_spellMore kinds) hkind
    rw [spell, htext, List.cons_append] at hl
    have hstep := next_of_cons hl
    rw [hlexeme] at hstep
    obtain ⟨hrest, hended', t, hnext, rfl⟩ := hstep
    have hl' : (splitGap false l.next.2.rest).2 = spell kinds := by
      rw [hrest]
      cases kinds with
      | nil => rfl
      | cons kind kinds => exact splitGap_spellMore (allProper_cons.1 hkinds).1 kinds
    obtain ⟨htokens, hfinish⟩ := ih hkinds (hended'.trans hended) hl'
    rw [scan_more hnext (hended'.trans hended)]
    exact ⟨congrArg (t.kind :: ·) htokens, hfinish⟩

end Lexer

/-- What was spelled is scanned to tokens of the same kinds. -/
theorem tokenize_spell {kinds : List Token.Kind} (h : AllProper kinds) :
    ∃ tokens, tokenize (String.ofList (spell kinds)) = .ok tokens ∧
      tokens.map Token.kind = kinds ++ [.endOfInput] := by
  have hrest : (Lexer.ofString (String.ofList (spell kinds))).rest = spell kinds :=
    String.toList_ofList
  obtain ⟨htokens, last, hfinish, hlast⟩ := Lexer.scan_spell (l := .ofString _) h rfl
    (by rw [hrest]; exact splitGap_spell h)
  exact ⟨_ ++ [last], by rw [tokenize, hfinish]; rfl, by simp [htokens, hlast]⟩

/-! ## What is found -/

/-- Only proper kinds are found before the end of input. -/
theorem Lexer.proper_of_scan {l : Lexer} (hended : l.ended = false) :
    AllProper (l.scan.tokens.map Token.kind) := by
  fun_induction Lexer.scan l with
  | case1 => exact allProper_nil
  | case2 l token hnext hmore later ih =>
    refine allProper_cons.2 ⟨?_, ih hmore⟩
    cases hrest : (splitGap false l.rest).2 with
    | nil =>
      obtain ⟨_, -, -, hlast⟩ := next_of_nil hrest
      rw [hlast] at hmore
      cases hmore
    | cons c cs =>
      obtain ⟨-, -, hstep⟩ := next_of_cons hrest
      split at hstep
      next kind hkind =>
        obtain ⟨t, ht, rfl⟩ := hstep
        obtain rfl : token = t := by simpa [hnext] using ht
        exact (lexeme_spells hkind).2.1.proper (lexeme_spells hkind).1
      next =>
        obtain ⟨e, he⟩ := hstep
        rw [hnext] at he
        cases he
  | case3 => exact allProper_nil

end Blockwork
