import Blockwork.Proofs.Tokenization

/-!
# Scanning goes on after faults

A lexer that is called again and again comes to the end of input, whatever faults it meets. Each
character of the text is passed over with a gap, or stands at the place of a token, or is part of
the text of a fault, and it is so once.

* `Lexer.after`, `Lexer.outcomes`: successive calls.
* `LexFault.Takes`: the text of a fault. `lexeme_takes`: the lexer takes no more and no less.
* `Part`, `Divides`: how a text is divided; `Lexer.divides`, by induction on the length of the text.
* `Lexer.next_at_stop`: the end of input is repeated.
* `tokenize_iff_outcomes`: scanning as a whole and call by call.
* `Exhausted`, `lexer_exhausts_source`: all of it, for each source.
-/

namespace Blockwork

/-! ## Calls -/

namespace Lexer

/-- The lexer after a number of calls. -/
def after (l : Lexer) : Nat → Lexer
  | 0 => l
  | n + 1 => l.next.2.after n

/-- What a number of calls yield. -/
def outcomes (l : Lexer) : Nat → List (Except LexError Token)
  | 0 => []
  | n + 1 => l.next.1 :: l.next.2.outcomes n

theorem after_add (l : Lexer) (m n : Nat) : l.after (m + n) = (l.after m).after n := by
  induction m generalizing l with
  | zero => rw [Nat.zero_add]; rfl
  | succ m ih => rw [Nat.succ_add]; exact ih l.next.2

theorem after_succ (l : Lexer) (n : Nat) : l.after (n + 1) = (l.after n).next.2 :=
  after_add l n 1

end Lexer

/-! ## The text of a fault -/

/-- The text of a fault in front of the rest: a single character that starts no lexeme and is no
blank, or a whole run of digits whose value is too large. -/
def LexFault.Takes : LexFault → List Char → List Char → Prop
  | unexpected c, text, _ => text = [c] ∧ isBlank c = false ∧ isWordStart c = false ∧
      c.isDigit = false ∧ ∀ sign : Symbol, sign.text.toList.head? ≠ some c
  | tooLarge digits, text, rest => digits = String.ofList text ∧ text ≠ [] ∧
      (∀ c ∈ text, c.isDigit = true) ∧ (∀ c ∈ rest.head?, c.isDigit = false) ∧
      Int32.maxValue.toInt < (Nat.ofDigitChars 10 text 0 : Int)

/-- Each symbol starts with the character of a symbol. -/
theorem Symbol.head?_ne_of_ofChar? {c : Char} (h : ofChar? c = none) (sign : Symbol) :
    sign.text.toList.head? ≠ some c := by
  intro hc
  cases sign <;> cases hc <;> revert h <;> decide

theorem readWord?_eq_none {c : Char} {cs : List Char} (h : ∀ d ∈ c :: cs, d.isDigit = true) :
    readWord? (c :: cs) = none ↔
      Int32.maxValue.toInt < (Nat.ofDigitChars 10 (c :: cs) 0 : Int) := by
  rw [readWord?_of_digits h, toWord?]
  simp

theorem lexeme_takes {c : Char} {cs : List Char} {fault : LexFault} (hsolid : Solid (c :: cs))
    (h : (lexeme c cs).reading = .error fault) :
    fault.Takes (lexeme c cs).text (lexeme c cs).rest := by
  unfold lexeme at h ⊢
  split at h
  next => cases h
  next hw =>
    rw [if_neg hw]
    split at h
    next hc =>
      rw [if_pos hc]
      have hdigits : ∀ d ∈ c :: cs.takeWhile Char.isDigit, d.isDigit = true :=
        List.forall_mem_cons.2 ⟨hc, List.all_eq_true.1 List.all_takeWhile⟩
      simp only [integerKind] at h
      split at h
      next => cases h
      next hnone =>
        cases h
        exact ⟨rfl, List.cons_ne_nil _ _, hdigits, head?_dropWhile,
          (readWord?_eq_none hdigits).1 hnone⟩
    next hd =>
      rw [if_neg hd]
      split at h
      next => cases h
      next hpair =>
        split at h
        next => cases h
        next hsign =>
          cases h
          exact ⟨rfl, (solid_cons.1 hsolid).1, by simpa using hw, by simpa using hd,
            Symbol.head?_ne_of_ofChar? hsign⟩

/-! ## How a text is divided -/

/-- What becomes of a part of a text. -/
inductive Part where
  /-- Blanks and comments. -/
  | skipped (text : List Char)
  /-- The text of a token or of a fault. -/
  | taken (text : List Char) (outcome : Except LexError Token)

namespace Part

def text : Part → List Char
  | skipped text | taken text _ => text

def outcome? : Part → Option (Except LexError Token)
  | skipped _ => none
  | taken _ outcome => some outcome

/-- What is required of a part that starts at a place in front of the rest of a text. -/
def Fits (start : Position) (rest : List Char) : Part → Prop
  | skipped text => Gap text rest
  | taken text (.ok t) => t.kind ≠ .endOfInput ∧ t.kind.Spells text ∧ t.kind.Ends rest ∧
      t.span = start.spanTo (start.after text)
  | taken text (.error e) => e.fault.Takes text rest ∧ e.line = start.line ∧
      e.column = start.column + 1

end Part

/-- A text that starts at a place is divided into parts. -/
structure Divides (start : Position) (source : List Char) (parts : List Part) : Prop where
  whole : parts.flatMap Part.text = source
  fits : ∀ before part rest, parts = before ++ part :: rest →
    part.Fits (start.after (before.flatMap Part.text)) (rest.flatMap Part.text)

theorem Divides.nil (start : Position) : Divides start [] [] :=
  ⟨rfl, fun before part rest h => by simp at h⟩

theorem Divides.cons {start : Position} {part : Part} {rest : List Char} {parts : List Part}
    (h : part.Fits start rest) (hrest : Divides (start.after part.text) rest parts) :
    Divides start (part.text ++ rest) (part :: parts) := by
  obtain ⟨rfl, hfits⟩ := hrest
  refine ⟨by simp, fun before p after hparts => ?_⟩
  cases before with
  | nil =>
    obtain ⟨rfl, rfl⟩ := List.cons.inj hparts
    exact h
  | cons b before =>
    obtain ⟨rfl, rfl⟩ := List.cons.inj hparts
    rw [List.flatMap_cons, Position.after_append]
    exact hfits before p after rfl

namespace Lexer

variable {l : Lexer}

/-- The outcome of a call that finds a lexeme, and the text that it takes. -/
theorem next_fits {gap : List Char} {c : Char} {cs : List Char}
    (h : splitGap false l.rest = (gap, c :: cs)) :
    Part.Fits (l.position.after gap) (lexeme c cs).rest (.taken (lexeme c cs).text l.next.1) := by
  have hsolid := (gap_splitGap l.rest).2
  rw [h] at hsolid
  rw [next_at_lexeme h]
  cases hreading : (lexeme c cs).reading with
  | ok kind =>
    obtain ⟨hkind, hs, he⟩ := lexeme_spells hreading
    exact ⟨hkind, hs, he hsolid, rfl⟩
  | error fault => exact ⟨lexeme_takes hsolid hreading, rfl, rfl⟩

/-- The outcomes of some calls are those of the parts of the text, and then only a gap is left. -/
structure Recovers (l : Lexer) (n : Nat) (parts : List Part) : Prop where
  length : n ≤ l.rest.length
  divides : Divides l.position l.rest parts
  outcomes : l.outcomes n = parts.filterMap Part.outcome?
  running : ∀ k ≤ n, (l.after k).ended = false
  stop : ∃ gap, splitGap false (l.after n).rest = (gap, []) ∧
    (l.after n).position.after gap = l.position.after l.rest

/-- Only a gap is left. -/
theorem Recovers.gap {gap : List Char} (hended : l.ended = false)
    (h : splitGap false l.rest = (gap, [])) : l.Recovers 0 [.skipped gap] := by
  have hgap := (gap_splitGap l.rest).1
  have hrest := splitGap_append false l.rest
  rw [h] at hgap hrest
  replace hrest : gap = l.rest := (List.append_nil gap).symm.trans hrest
  have hfits : Part.Fits l.position [] (.skipped gap) := hgap
  have hdivides : Divides l.position (gap ++ []) [.skipped gap] := .cons hfits (.nil _)
  rw [List.append_nil] at hdivides
  refine ⟨Nat.zero_le _, hrest ▸ hdivides, rfl, fun k hk => ?_, gap, h, ?_⟩
  · rw [Nat.le_zero.1 hk]
    exact hended
  · rw [hrest]
    rfl

/-- A call that finds a lexeme, and those that follow. -/
theorem Recovers.cons {gap : List Char} {c : Char} {cs : List Char} {n : Nat} {parts : List Part}
    (hended : l.ended = false) (h : splitGap false l.rest = (gap, c :: cs))
    (hnext : l.next.2.Recovers n parts) :
    l.Recovers (n + 1) (.skipped gap :: .taken (lexeme c cs).text l.next.1 :: parts) := by
  have hgap := (gap_splitGap l.rest).1
  have hrest := splitGap_append false l.rest
  rw [h, ← lexeme_append c cs] at hrest
  rw [h, ← lexeme_append c cs] at hgap
  have htaken := next_fits h
  obtain ⟨hstop, hleft⟩ : l.next.2.position =
      (l.position.after gap).after (lexeme c cs).text ∧ l.next.2.rest = (lexeme c cs).rest := by
    rw [next_at_lexeme h]
    exact ⟨rfl, rfl⟩
  obtain ⟨hlength, hdivides, houtcomes, hrunning, last, hlast, hposition⟩ := hnext
  rw [hstop, hleft] at hdivides hposition
  have hfits : Part.Fits l.position ((lexeme c cs).text ++ (lexeme c cs).rest) (.skipped gap) :=
    hgap
  have hparts := Divides.cons hfits (Divides.cons htaken hdivides)
  have hsource : gap ++ ((lexeme c cs).text ++ (lexeme c cs).rest) = l.rest := hrest
  refine ⟨?_, hsource ▸ hparts, congrArg (l.next.1 :: ·) houtcomes, fun k hk => ?_, last, hlast, ?_⟩
  · have := length_next_lt (hrunning 0 (Nat.zero_le n))
    omega
  · cases k with
    | zero => exact hended
    | succ k => exact hrunning k (Nat.le_of_succ_le_succ hk)
  · rw [← hsource, Position.after_append, Position.after_append]
    exact hposition

/-- By induction on the length of the text. -/
theorem recovers (l : Lexer) (hended : l.ended = false) : ∃ n parts, l.Recovers n parts := by
  induction hlength : l.rest.length using Nat.strongRecOn generalizing l with
  | ind length ih =>
    cases hsplit : splitGap false l.rest with
    | mk gap rest =>
      cases rest with
      | nil => exact ⟨0, _, .gap hended hsplit⟩
      | cons c cs =>
        have hnext : l.next.2.ended = false := by
          rw [next_at_lexeme hsplit]
          exact hended
        obtain ⟨n, parts, h⟩ := ih _ (hlength ▸ length_next_lt hnext) l.next.2 hnext rfl
        exact ⟨n + 1, _, h.cons hended hsplit⟩

/-! ## The end of input -/

/-- Behind the last gap, every call finds the end of input, and the lexer stays as it is after the
first one. -/
theorem next_at_stop {gap : List Char} (h : splitGap false l.rest = (gap, [])) (k : Nat) :
    let stop := l.position.after gap
    (l.after k).next = (.ok ⟨.endOfInput, stop.spanTo stop⟩, ⟨[], stop, true⟩) := by
  induction k generalizing l gap with
  | zero => exact next_at_end h
  | succ k ih =>
    have hnext := next_at_end h
    have hstop : splitGap false l.next.2.rest = ([], []) := by
      rw [hnext]
      rfl
    have hagain := ih hstop
    rw [hnext] at hagain
    rw [after, hnext]
    exact hagain

/-! ## As a whole and call by call -/

/-- A scan ends with the end of input, or else with the first fault. -/
theorem outcomes_eq_scan (l : Lexer) : ∀ n, (∀ k ≤ n, (l.after k).ended = false) →
    (l.after (n + 1)).ended = true → ∃ rest,
      l.outcomes (n + 1) = l.scan.tokens.map .ok ++ l.scan.finish :: rest ∧
        (rest = [] ∨ ∃ e, l.scan.finish = .error e) := by
  fun_induction Lexer.scan l with
  | case1 l e hnext =>
    intro n hrunning hended
    rw [outcomes, hnext]
    exact ⟨l.next.2.outcomes n, rfl, .inr ⟨e, rfl⟩⟩
  | case2 l t hnext hmore later ih =>
    intro n hrunning hended
    cases n with
    | zero =>
      rw [after, after, hmore] at hended
      cases hended
    | succ n =>
      obtain ⟨rest, houtcomes, hrest⟩ := ih n (fun k hk => hrunning (k + 1) (by omega)) hended
      rw [outcomes, hnext]
      exact ⟨rest, congrArg (.ok t :: ·) houtcomes, hrest⟩
  | case3 l t hnext hlast =>
    intro n hrunning hended
    cases n with
    | zero =>
      rw [outcomes, hnext]
      exact ⟨[], rfl, .inl rfl⟩
    | succ n => exact absurd (hrunning 1 (by omega)) hlast

end Lexer

section

variable {ε α : Type} {as bs : List α} {d e : ε} {xs ys : List (Except ε α)}

theorem map_ok_ne : as.map .ok ++ .error d :: xs ≠ bs.map .ok := by
  intro h
  have hd : Except.error d ∈ bs.map .ok := h ▸ List.mem_append_right _ List.mem_cons_self
  obtain ⟨b, -, hb⟩ := List.mem_map.1 hd
  cases hb

theorem map_ok_inj : as.map (.ok : α → Except ε α) = bs.map .ok ↔ as = bs :=
  List.map_inj_right fun _ _ h => Except.ok.inj h

/-- There is only one first error. -/
theorem first_error_inj (h : as.map .ok ++ .error d :: xs = bs.map .ok ++ .error e :: ys) :
    d = e := by
  induction as generalizing bs with
  | nil =>
    cases bs with
    | nil => cases h; rfl
    | cons b bs => cases h
  | cons a as ih =>
    cases bs with
    | nil => cases h
    | cons b bs => exact ih (List.cons.inj h).2

end

/-- All tokens if there is no fault, and else the first fault. -/
theorem tokenize_iff_outcomes {source : String} {outcomes rest : List (Except LexError Token)}
    (h : outcomes = (Lexer.ofString source).scan.tokens.map .ok ++
      (Lexer.ofString source).scan.finish :: rest)
    (hrest : rest = [] ∨ ∃ e, (Lexer.ofString source).scan.finish = .error e) :
    (∀ tokens : List Token, tokenize source = .ok tokens ↔ outcomes = tokens.map .ok) ∧
    ∀ e, tokenize source = .error e ↔ ∃ (tokens : List Token) (rest : List _),
      outcomes = tokens.map .ok ++ .error e :: rest := by
  have htokenize : tokenize source = (Lexer.ofString source).scan.finish.map fun last =>
      (Lexer.ofString source).scan.tokens ++ [last] := rfl
  rw [htokenize, h]
  cases hfinish : (Lexer.ofString source).scan.finish with
  | ok last =>
    obtain rfl : rest = [] := hrest.elim id fun ⟨e, he⟩ => by rw [hfinish] at he; cases he
    rw [show [Except.ok last] = [last].map (.ok : Token → Except LexError Token) from rfl,
      ← List.map_append]
    refine ⟨fun tokens => ?_, fun e => iff_of_false nofun ?_⟩
    · rw [map_ok_inj]
      exact ⟨Except.ok.inj, congrArg _⟩
    · rintro ⟨tokens, rest, h⟩
      exact map_ok_ne h.symm
  | error d =>
    refine ⟨fun tokens => iff_of_false nofun map_ok_ne, fun e => ⟨fun he => ?_, ?_⟩⟩
    · cases he
      exact ⟨_, _, rfl⟩
    · rintro ⟨tokens, rest, h⟩
      rw [first_error_inj h]
      rfl

/-! ## Whole texts -/

/-- The token for the end of input. -/
def endToken (source : String) : Token :=
  let stop := ({} : Position).after source.toList
  ⟨.endOfInput, stop.spanTo stop⟩

/-- A lexer that is called again and again on a source divides it into parts, and reports those that
it takes and then the end of input. -/
structure Exhausted (source : String) (n : Nat) (parts : List Part) : Prop where
  few : n ≤ source.length
  divides : Divides {} source.toList parts
  outcomes : (Lexer.ofString source).outcomes n = parts.filterMap Part.outcome?
  /-- Every further call finds the end of input. -/
  next : ∀ k, n ≤ k → ((Lexer.ofString source).after k).next.1 = .ok (endToken source)
  last : (endToken source).mark = .ending source.utf8ByteSize
  hasNext : ∀ k, ((Lexer.ofString source).after k).hasNext = decide (k ≤ n)
  /-- As an iterator, the lexer gives the same outcomes, the end of input once, and then nothing. -/
  next? : ∀ k, ((Lexer.ofString source).after k).next? =
    if k ≤ n then
      (some ((Lexer.ofString source).after k).next.1, (Lexer.ofString source).after (k + 1))
    else (none, (Lexer.ofString source).after k)
  tokenize_ok : ∀ tokens : List Token, tokenize source = .ok tokens ↔
    (Lexer.ofString source).outcomes (n + 1) = tokens.map .ok
  tokenize_error : ∀ e, tokenize source = .error e ↔ ∃ (tokens : List Token) (rest : List _),
    (Lexer.ofString source).outcomes (n + 1) = tokens.map .ok ++ .error e :: rest

/-- After as many calls as there are characters in a source, at most, every call finds the end of
input, whatever faults there are. Each character of the source is in a gap or belongs to a token or
to a fault, and the tokens and faults are what the calls before yield. -/
theorem lexer_exhausts_source (source : String) : ∃ n parts, Exhausted source n parts := by
  obtain ⟨n, parts, h⟩ := (Lexer.ofString source).recovers rfl
  obtain ⟨gap, hstop, hposition⟩ := h.stop
  have hnext (k : Nat) (hk : n ≤ k) : ((Lexer.ofString source).after k).next =
      (.ok (endToken source), ⟨[], ({} : Position).after source.toList, true⟩) := by
    obtain ⟨j, rfl⟩ := Nat.exists_eq_add_of_le hk
    have hat := Lexer.next_at_stop hstop j
    rw [hposition, ← Lexer.after_add] at hat
    exact hat
  have hended (k : Nat) : ((Lexer.ofString source).after k).ended = decide (n < k) := by
    cases k with
    | zero => exact (h.running 0 (Nat.zero_le n)).trans (decide_eq_false (by omega)).symm
    | succ k =>
      by_cases hk : n < k + 1
      · rw [Lexer.after_succ, hnext k (Nat.le_of_lt_succ hk), decide_eq_true hk]
      · rw [h.running (k + 1) (by omega), decide_eq_false hk]
  obtain ⟨rest, houtcomes, hrest⟩ := Lexer.outcomes_eq_scan _ n h.running
    ((hended (n + 1)).trans (decide_eq_true (Nat.lt_succ_self n)))
  obtain ⟨htokens, herror⟩ := tokenize_iff_outcomes houtcomes hrest
  have hlast : (endToken source).mark = .ending source.utf8ByteSize := by
    have hsize := Position.offset_after {} source.toList
    rw [byteSize_toList, Nat.zero_add] at hsize
    rw [← hsize]
    rfl
  refine ⟨n, parts, ⟨h.length, h.divides, h.outcomes, fun k hk => by rw [hnext k hk], hlast,
    fun k => ?_, fun k => ?_, htokens, herror⟩⟩
  · rw [Lexer.hasNext, hended, ← decide_not]
    exact decide_eq_decide.2 Nat.not_lt
  · rw [Lexer.next?, hended, Lexer.after_succ]
    by_cases hk : k ≤ n
    · rw [if_pos hk, decide_eq_false (Nat.not_lt.2 hk)]
      rfl
    · rw [if_neg hk, decide_eq_true (Nat.not_le.1 hk)]
      rfl

/-- Three faults, a comment between the first two. -/
example : (Lexer.ofString "?// x\n99999999999é").outcomes 4 =
    [.error ⟨.unexpected '?', 1, 1⟩, .error ⟨.tooLarge "99999999999", 2, 1⟩,
      .error ⟨.unexpected 'é', 2, 12⟩, .ok ⟨.endOfInput, ⟨19, 19, 2, 12⟩⟩] := by
  rfl

end Blockwork
