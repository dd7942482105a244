import Mathlib.Data.List.DropRight
import Blockwork.Proofs.LineBreaks
import Blockwork.Proofs.Recovery

/-!
# Where lexemes stand

A lexer counts bytes, lines and columns character by character. What it reports for a lexeme is
what one counts in the text before the lexeme: its bytes, its newlines, and the characters behind
the last of these. It is so for tokens, for faults and for the end of input, whatever has been
passed over before.

* `lineBehind`, `columnBehind`: the place of the character behind a text. `Position.after_start`: a
  lexer that has passed over the text has counted the same.
* `StandsAt`: an outcome with the text that it stands for and what it says about the place.
* `Lexer.Stands`: a lexer that has passed over a beginning of a source; `Stands.next` is one call,
  and `Lexer.stands_after` any number of them.
* `outcome_places`: the place of each outcome.
-/

namespace Blockwork

/-! ## Places in a text -/

/-- The line of the character behind a text, counted from one. -/
def lineBehind (before : List Char) : Nat := 1 + before.count '\n'

/-- How many characters stand between the last newline of a text, or its start, and the character
behind the text. -/
def columnBehind (before : List Char) : Nat := (before.rtakeWhile (· != '\n')).length

/-- How messages name the place of the character behind a text. Errors count columns from one. -/
def placeText (before : List Char) : String :=
  s!"at line {lineBehind before}, column {columnBehind before + 1}"

theorem Position.after_snoc (p : Position) (cs : List Char) (c : Char) :
    p.after (cs ++ [c]) = (p.after cs).next c :=
  p.after_append cs [c]

/-- A newline starts a line, and each other character is one more on its line. -/
theorem Position.column_after (cs : List Char) :
    (({} : Position).after cs).column = columnBehind cs := by
  induction cs using List.reverseRecOn with
  | nil => rfl
  | append_singleton cs c ih =>
    rw [after_snoc, columnBehind, List.rtakeWhile_concat]
    by_cases hc : c = '\n'
    · simp [next, hc]
    · simp [next, hc, ih, columnBehind]

/-- What has been counted behind a text. -/
theorem Position.after_start (cs : List Char) :
    ({} : Position).after cs = ⟨byteSize cs, lineBehind cs, columnBehind cs⟩ := by
  have hoffset := offset_after {} cs
  have hline := line_after {} cs
  have hcolumn := column_after cs
  rw [Nat.zero_add] at hoffset
  generalize ({} : Position).after cs = p at *
  obtain ⟨offset, line, column⟩ := p
  rw [Position.mk.injEq]
  exact ⟨hoffset, hline, hcolumn⟩

/-! ## Outcomes at their places -/

/-- What is required of an outcome for a text that stands between two parts of a source. The end of
input has no text and stands behind the whole source. -/
def StandsAt (before text rest : List Char) : Except LexError Token → Prop
  | .ok t => t.kind.Spells text ∧ t.kind.Ends rest ∧ (t.kind = .endOfInput → rest = []) ∧
      t.span.start = byteSize before ∧ t.span.stop = byteSize (before ++ text) ∧
      t.span.line = lineBehind before ∧ t.span.column = columnBehind before
  | .error e => e.fault.Takes text rest ∧
      e.line = lineBehind before ∧ e.column = columnBehind before + 1 ∧
      ∃ complaint, e.message = complaint ++ placeText before

/-- The message of a fault ends with its place. -/
theorem LexError.message_eq (e : LexError) :
    ∃ complaint, e.message = complaint ++ s!"at line {e.line}, column {e.column}" := by
  obtain ⟨fault, line, column⟩ := e
  cases fault with
  | unexpected c =>
    refine ⟨s!"Unexpected character '{c}' ", ?_⟩
    simp [message, toString, String.append_assoc]
  | tooLarge digits =>
    refine ⟨s!"Invalid integer literal '{digits}' ", ?_⟩
    simp [message, toString, String.append_assoc]

/-- A part of a text that starts where the counting has come to. -/
theorem Part.Fits.standsAt {before text rest : List Char} {outcome : Except LexError Token}
    (h : Part.Fits (({} : Position).after before) rest (.taken text outcome)) :
    StandsAt before text rest outcome := by
  cases outcome with
  | ok t =>
    obtain ⟨hkind, hs, he, hspan⟩ := h
    rw [← Position.after_append, Position.after_start, Position.after_start] at hspan
    rw [StandsAt, hspan]
    exact ⟨hs, he, fun hend => absurd hend hkind, rfl, rfl, rfl, rfl⟩
  | error e =>
    obtain ⟨htakes, hline, hcolumn⟩ := h
    rw [Position.after_start] at hline hcolumn
    obtain ⟨complaint, hmessage⟩ := e.message_eq
    rw [hline, hcolumn] at hmessage
    exact ⟨htakes, hline, hcolumn, complaint, hmessage⟩

namespace Lexer

/-- A lexer of a source that has passed over a beginning of it. -/
structure Stands (source passed : List Char) (l : Lexer) : Prop where
  text : source = passed ++ l.rest
  position : l.position = ({} : Position).after passed

variable {source passed : List Char} {l : Lexer}

/-- A call passes over a gap and over the text of what it finds. -/
theorem Stands.next (h : l.Stands source passed) : ∃ gap text,
    l.rest = gap ++ (text ++ l.next.2.rest) ∧ Gap gap (text ++ l.next.2.rest) ∧
      StandsAt (passed ++ gap) text l.next.2.rest l.next.1 ∧
      l.next.2.Stands source (passed ++ gap ++ text) := by
  have hgap := (gap_splitGap l.rest).1
  have hrest := splitGap_append false l.rest
  cases hsplit : splitGap false l.rest with
  | mk gap rest =>
    rw [hsplit] at hgap hrest
    cases rest with
    | nil =>
      have hplace : l.position.after gap = ({} : Position).after (passed ++ gap) := by
        rw [h.position, Position.after_append]
      rw [next_at_end hsplit, hplace]
      refine ⟨gap, [], hrest.symm, hgap, ?_, ?_, ?_⟩
      · rw [Position.after_start]
        exact ⟨rfl, by simp [Token.Kind.Ends], fun _ => rfl, rfl, by simp [Position.spanTo], rfl,
          rfl⟩
      · rw [h.text, ← hrest, List.append_assoc, List.append_assoc]
        rfl
      · rw [List.append_nil]
    | cons c cs =>
      have hfits := next_fits hsplit
      rw [h.position, ← Position.after_append] at hfits
      have hnext : l.next.2.rest = (lexeme c cs).rest ∧ l.next.2.position =
          ({} : Position).after (passed ++ gap ++ (lexeme c cs).text) := by
        rw [next_at_lexeme hsplit, h.position, Position.after_append, Position.after_append]
        exact ⟨rfl, rfl⟩
      rw [← lexeme_append c cs] at hgap hrest
      rw [hnext.1]
      refine ⟨gap, (lexeme c cs).text, hrest.symm, hgap, hfits.standsAt, ?_, hnext.2⟩
      rw [h.text, ← hrest, hnext.1, List.append_assoc, List.append_assoc]

/-- By induction on the number of calls. -/
theorem stands_after (source : String) (k : Nat) :
    ∃ passed, ((ofString source).after k).Stands source.toList passed := by
  induction k with
  | zero => exact ⟨[], rfl, rfl⟩
  | succ k ih =>
    obtain ⟨passed, h⟩ := ih
    obtain ⟨gap, text, -, -, -, hnext⟩ := h.next
    rw [after_succ]
    exact ⟨_, hnext⟩

end Lexer

/-! ## All outcomes -/

/-- However often a lexer has been called on a source, and whatever it has found, the next call
passes over a gap and then finds a token, a fault or the end of input, and reports the true place of
it: the line is one more than the number of newlines before its first character, and the column of
a token is the number of characters between the last of these newlines, or the start, and that
character. A fault counts its column from one. -/
theorem outcome_places (source : String) (k : Nat) :
    let l := (Lexer.ofString source).after k
    ∃ passed gap text, source.toList = passed ++ l.rest ∧
      l.rest = gap ++ (text ++ l.next.2.rest) ∧ Gap gap (text ++ l.next.2.rest) ∧
      StandsAt (passed ++ gap) text l.next.2.rest l.next.1 := by
  intro l
  obtain ⟨passed, h⟩ := Lexer.stands_after source k
  obtain ⟨gap, text, hrest, hgap, hstands, -⟩ := h.next
  exact ⟨passed, gap, text, h.text, hrest, hgap, hstands⟩

end Blockwork
