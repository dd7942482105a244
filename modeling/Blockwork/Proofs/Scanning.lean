import Blockwork.Token.Lexer

/-!
# Scanning, call by call

`Lexer.scan` is recursive in the lexer; what it yields is what successive calls of `next` yield.

* `Lexer.next_at_end`, `Lexer.next_at_lexeme`: one call, by what stands behind the gap.
* `Lexer.scan_error`, `Lexer.scan_more`, `Lexer.scan_last`: one step of a scan.
* `Scan.outcomes`: all that a scan is put together from.
* `Lexer.Yields`: the tokens of successive calls.
* `Lexer.yields_of_scan`: a scan by successive calls.
-/

namespace Blockwork

/-- What calls yield up to the end of input or the first fault. -/
def Scan.outcomes (scan : Scan) : List (Except LexError Token) :=
  scan.tokens.map .ok ++ [scan.finish]

namespace Lexer

variable {l l' : Lexer} {t : Token} {c r ts : List Token}

/-- Behind a gap at the end of the text, the end of input is found. -/
theorem next_at_end {gap : List Char} (h : splitGap false l.rest = (gap, [])) :
    let stop := l.position.after gap
    l.next = (.ok ⟨.endOfInput, stop.spanTo stop⟩, ⟨[], stop, true⟩) := by
  unfold next
  rw [h]

/-- What is found behind a gap is the lexeme there. -/
theorem next_at_lexeme {gap : List Char} {c : Char} {cs : List Char}
    (h : splitGap false l.rest = (gap, c :: cs)) :
    let start := l.position.after gap
    let stop := start.after (lexeme c cs).text
    l.next = (match (lexeme c cs).reading with
      | .ok kind => .ok ⟨kind, start.spanTo stop⟩
      | .error fault => .error ⟨fault, start.line, start.column + 1⟩,
      ⟨(lexeme c cs).rest, stop, l.ended⟩) := by
  unfold next
  exact h ▸ rfl

theorem next_of_nil (h : (splitGap false l.rest).2 = []) :
    ∃ t, l.next.1 = .ok t ∧ t.kind = .endOfInput ∧ l.next.2.ended = true := by
  rw [next_at_end (Prod.ext rfl h)]
  exact ⟨_, rfl, rfl, rfl⟩

theorem next_of_cons {c : Char} {cs : List Char} (h : (splitGap false l.rest).2 = c :: cs) :
    l.next.2.rest = (lexeme c cs).rest ∧ l.next.2.ended = l.ended ∧
      match (lexeme c cs).reading with
      | .ok kind => ∃ t, l.next.1 = .ok t ∧ t.kind = kind
      | .error _ => ∃ e, l.next.1 = .error e := by
  rw [next_at_lexeme (Prod.ext rfl h)]
  refine ⟨rfl, rfl, ?_⟩
  cases (lexeme c cs).reading with
  | ok kind => exact ⟨_, rfl, rfl⟩
  | error fault => exact ⟨_, rfl⟩

theorem scan_error {e : LexError} (h : l.next.1 = .error e) : l.scan = ⟨[], .error e⟩ := by
  rw [scan, h]

theorem scan_more (h : l.next.1 = .ok t) (hended : l.next.2.ended = false) :
    l.scan = ⟨t :: l.next.2.scan.tokens, l.next.2.scan.finish⟩ := by
  rw [scan, h]
  exact dif_pos hended

theorem scan_last (h : l.next.1 = .ok t) (hended : l.next.2.ended = true) :
    l.scan = ⟨[], .ok t⟩ := by
  rw [scan, h]
  exact dif_neg (by rw [hended]; decide)

/-- The next token is the first one of the scan, if it has one. -/
theorem next_of_scan (l : Lexer) : l.next.1 =
    match l.scan.tokens with
    | [] => l.scan.finish
    | t :: _ => .ok t := by
  cases h : l.next.1 with
  | error e => rw [scan_error h]
  | ok t =>
    cases hended : l.next.2.ended with
    | false => rw [scan_more h hended]
    | true => rw [scan_last h hended]

theorem scan_of_cons (h : l.scan.tokens = t :: ts) :
    l.next.1 = .ok t ∧ l.next.2.scan = ⟨ts, l.scan.finish⟩ := by
  cases hnext : l.next.1 with
  | error e => rw [scan_error hnext] at h; cases h
  | ok t' =>
    cases hended : l.next.2.ended with
    | false =>
      rw [scan_more hnext hended] at h ⊢
      cases h
      exact ⟨rfl, rfl⟩
    | true => rw [scan_last hnext hended] at h; cases h

/-- Each token has a character at least. -/
theorem length_tokens_le (l : Lexer) : l.scan.tokens.length ≤ l.rest.length := by
  fun_induction Lexer.scan l with
  | case1 => exact Nat.zero_le _
  | case2 l token hnext hended later ih =>
    exact Nat.succ_le_of_lt (Nat.lt_of_le_of_lt ih (length_next_lt hended))
  | case3 => exact Nat.zero_le _

/-- The tokens of successive calls of `next`, none of which meets a fault, and the lexer behind
them. -/
inductive Yields : Lexer → List Token → Lexer → Prop where
  | nil (l : Lexer) : Yields l [] l
  | cons {l l' : Lexer} {t : Token} {ts : List Token} (h : l.next.1 = .ok t)
    (rest : Yields l.next.2 ts l') : Yields l (t :: ts) l'

theorem Yields.snoc (h : Yields l ts l') (ht : l'.next.1 = .ok t) :
    Yields l (ts ++ [t]) l'.next.2 := by
  induction h with
  | nil l => exact .cons ht (.nil _)
  | cons hfirst _ ih => exact .cons hfirst (ih ht)

/-- The tokens of a scan come from successive calls, and so does what is left of the scan. -/
theorem yields_of_scan (h : l.scan.tokens = c ++ r) :
    ∃ l', Yields l c l' ∧ l'.scan = ⟨r, l.scan.finish⟩ := by
  induction c generalizing l with
  | nil => exact ⟨l, .nil l, by rw [← List.nil_append r, ← h]⟩
  | cons t c ih =>
    replace h : l.scan.tokens = t :: (c ++ r) := h
    obtain ⟨hnext, hscan⟩ := scan_of_cons h
    obtain ⟨l', hy, hl'⟩ := ih (l := l.next.2) (by rw [hscan])
    exact ⟨l', .cons hnext hy, by rw [hl', hscan]⟩

end Lexer

end Blockwork
