import Blockwork.Proofs.Tokenization

/-!
# Scanning and newlines

No lexeme and no comment goes on behind a newline, and a lexer remembers nothing of what it has
passed over but the place that it has reached. So a text in front of a newline is scanned as if
nothing followed, and the text behind it as if nothing came before, but for the places.

* `splitGap_newline`, `lexeme_newline`: what stands at the end of the text in front.
* `Lead`, `behind`: how many bytes and lines come before a text, and the places behind them;
  `Lexer.scan_behind`: a scan depends on its place in this way only.
* `Scan.followedBy`: one scan goes on where another one ends.
* `Lexer.scan_lines`: the scan of two texts with a newline between them.
-/

namespace Blockwork

/-! ## In front of a newline -/

/-- A newline is not the second slash of a comment. -/
theorem opensComment_newline (inComment : Bool) (c : Char) (cs bs : List Char) :
    (inComment && c != '\n' || c == '/' && (cs ++ '\n' :: bs).head? == some '/') =
      (inComment && c != '\n' || c == '/' && cs.head? == some '/') := by
  cases cs <;> rfl

/-- The newline belongs to the gap if the gap reaches it, and then the gap goes on behind it. -/
theorem splitGap_newline (inComment : Bool) (as bs : List Char) :
    splitGap inComment (as ++ '\n' :: bs) =
      match splitGap inComment as with
      | (gap, []) => (gap ++ '\n' :: (splitGap false bs).1, (splitGap false bs).2)
      | (gap, c :: cs) => (gap, c :: (cs ++ '\n' :: bs)) := by
  fun_induction splitGap inComment as with
  | case1 inComment => simp [splitGap, isBlank_newline]
  | case2 inComment c cs hc gap rest hsplit ih =>
    rw [← opensComment_newline inComment c cs bs] at hc
    rw [List.cons_append, splitGap, if_pos hc, ih, hsplit]
    cases rest <;> rfl
  | case3 inComment c cs hc hblank gap rest hsplit ih =>
    rw [← opensComment_newline inComment c cs bs] at hc
    rw [List.cons_append, splitGap, if_neg hc, if_pos hblank, ih, hsplit]
    cases rest <;> rfl
  | case4 inComment c cs hc hblank =>
    rw [← opensComment_newline inComment c cs bs] at hc
    rw [List.cons_append, splitGap, if_neg hc, if_neg hblank]

/-- A run of characters of a class that the newline is not in ends in front of it. -/
theorem run_newline {p : Char → Bool} (hp : p '\n' = false) (cs bs : List Char) :
    (cs ++ '\n' :: bs).takeWhile p = cs.takeWhile p ∧
      (cs ++ '\n' :: bs).dropWhile p = cs.dropWhile p ++ '\n' :: bs := by
  have hsplit : cs ++ '\n' :: bs = cs.takeWhile p ++ (cs.dropWhile p ++ '\n' :: bs) := by
    rw [← List.append_assoc, List.takeWhile_append_dropWhile]
  rw [hsplit]
  refine run_ends (List.all_eq_true.1 List.all_takeWhile) fun d hd => ?_
  cases hdrop : cs.dropWhile p with
  | nil =>
    rw [hdrop] at hd
    cases hd
    exact hp
  | cons e es =>
    rw [hdrop] at hd
    cases hd
    exact head?_dropWhile d (by rw [hdrop]; rfl)

theorem ofPair?_newline (c : Char) : Symbol.ofPair? c '\n' = none := by
  cases h : Symbol.ofPair? c '\n' with
  | none => rfl
  | some sign => cases sign <;> simpa [Symbol.text] using Symbol.ofPair?_eq_some.1 h

/-- A lexeme ends in front of a newline, also one that is a fault. -/
theorem lexeme_newline (c : Char) (cs bs : List Char) : lexeme c (cs ++ '\n' :: bs) =
    ⟨(lexeme c cs).text, (lexeme c cs).reading, (lexeme c cs).rest ++ '\n' :: bs⟩ := by
  obtain ⟨hword, hrest⟩ := run_newline (p := isWordPart) (by decide) cs bs
  obtain ⟨hdigits, hrest'⟩ := run_newline (p := Char.isDigit) (by decide) cs bs
  unfold lexeme
  split
  next => rw [hword, hrest]
  next =>
    split
    next => rw [hdigits, hrest']
    next =>
      cases cs with
      | nil =>
        simp only [List.nil_append, List.head?_cons, List.head?_nil, Option.bind_some,
          Option.bind_none, ofPair?_newline]
        split <;> rfl
      | cons d cs =>
        simp only [List.cons_append, List.head?_cons, Option.bind_some]
        split
        next => rfl
        next => split <;> rfl

/-! ## Behind other text -/

/-- What comes before a text. -/
structure Lead where
  bytes : Nat
  /-- How many lines end there. -/
  lines : Nat

/-- A text that comes before another one. -/
def Lead.ofText (cs : List Char) : Lead := ⟨byteSize cs, cs.count '\n'⟩

namespace Position

/-- The place that stands where `p` does, behind what comes before. -/
def behind (lead : Lead) (p : Position) : Position :=
  ⟨p.offset + lead.bytes, p.line + lead.lines, p.column⟩

theorem behind_next (lead : Lead) (p : Position) (c : Char) :
    (p.behind lead).next c = (p.next c).behind lead := by
  unfold next behind
  split <;> simp only [Position.mk.injEq, and_true] <;> omega

theorem behind_after (lead : Lead) (p : Position) (cs : List Char) :
    (p.behind lead).after cs = (p.after cs).behind lead := by
  induction cs generalizing p with
  | nil => rfl
  | cons c cs ih =>
    show ((p.behind lead).next c).after cs = _
    rw [behind_next, ih]
    rfl

theorem line_after (p : Position) (cs : List Char) :
    (p.after cs).line = p.line + cs.count '\n' := by
  induction cs generalizing p with
  | nil => rfl
  | cons c cs ih =>
    show ((p.next c).after cs).line = _
    rw [ih, List.count_cons]
    unfold next
    split
    next hc => simp only [hc, beq_self_eq_true, if_true]; omega
    next hc => simp [hc]

/-- Behind a newline, places are those of a text of its own but for what comes before. -/
theorem start_after_newline (as : List Char) :
    ({} : Position).after (as ++ ['\n']) = behind (.ofText (as ++ ['\n'])) {} := by
  have hoffset := offset_after {} (as ++ ['\n'])
  have hline := line_after {} (as ++ ['\n'])
  have hcolumn : (({} : Position).after (as ++ ['\n'])).column = 0 := by
    rw [after_append]
    rfl
  generalize ({} : Position).after (as ++ ['\n']) = p at *
  obtain ⟨offset, line, column⟩ := p
  rw [behind, Position.mk.injEq]
  exact ⟨hoffset, hline, hcolumn⟩

end Position

def Span.behind (lead : Lead) (s : Span) : Span :=
  ⟨s.start + lead.bytes, s.stop + lead.bytes, s.line + lead.lines, s.column⟩

def Token.behind (lead : Lead) (t : Token) : Token := ⟨t.kind, t.span.behind lead⟩

def LexError.behind (lead : Lead) (e : LexError) : LexError :=
  ⟨e.fault, e.line + lead.lines, e.column⟩

/-- What a call of `Lexer.next` finds, behind what comes before. -/
def outcomeBehind (lead : Lead) : Except LexError Token → Except LexError Token
  | .ok t => .ok (t.behind lead)
  | .error e => .error (e.behind lead)

def Scan.behind (lead : Lead) (s : Scan) : Scan :=
  ⟨s.tokens.map (Token.behind lead), outcomeBehind lead s.finish⟩

namespace Lexer

/-- A lexer of the same text, behind what comes before. -/
def behind (lead : Lead) (l : Lexer) : Lexer := { l with position := l.position.behind lead }

theorem next_behind (lead : Lead) (l : Lexer) :
    (l.behind lead).next = (outcomeBehind lead l.next.1, l.next.2.behind lead) := by
  have hrest : (l.behind lead).rest = l.rest := rfl
  have hposition : (l.behind lead).position = l.position.behind lead := rfl
  cases hsplit : splitGap false l.rest with
  | mk gap rest =>
    cases rest with
    | nil =>
      rw [next_at_end hsplit, next_at_end (l := l.behind lead) (hrest ▸ hsplit), hposition,
        Position.behind_after]
      rfl
    | cons c cs =>
      rw [next_at_lexeme hsplit, next_at_lexeme (l := l.behind lead) (hrest ▸ hsplit), hposition,
        Position.behind_after, Position.behind_after]
      cases (lexeme c cs).reading <;> rfl

/-- A scan depends on its place only as the places of its tokens and faults do. -/
theorem scan_behind (lead : Lead) (l : Lexer) : (l.behind lead).scan = l.scan.behind lead := by
  have hnext := next_behind lead l
  fun_induction Lexer.scan l with
  | case1 l error h =>
    rw [h] at hnext
    rw [scan_error (congrArg Prod.fst hnext)]
    rfl
  | case2 l token h hmore later ih =>
    rw [h] at hnext
    rw [scan_more (congrArg Prod.fst hnext) (by rw [hnext]; exact hmore), hnext,
      ih (next_behind lead _)]
    rfl
  | case3 l token h hlast =>
    rw [h] at hnext
    rw [Bool.not_eq_false] at hlast
    rw [scan_last (congrArg Prod.fst hnext) (by rw [hnext]; exact hlast)]
    rfl

end Lexer

/-! ## A newline between two texts -/

/-- A scan that goes on where another one finds the end of input. A fault ends the scan. -/
def Scan.followedBy (s later : Scan) : Scan :=
  match s.finish with
  | .ok _ => ⟨s.tokens ++ later.tokens, later.finish⟩
  | .error e => ⟨s.tokens, .error e⟩

theorem Scan.followedBy_cons (t : Token) (ts : List Token) (finish : Except LexError Token)
    (later : Scan) : followedBy ⟨t :: ts, finish⟩ later =
      ⟨t :: (followedBy ⟨ts, finish⟩ later).tokens, (followedBy ⟨ts, finish⟩ later).finish⟩ := by
  cases finish <;> rfl

namespace Lexer

/-- A lexer of a text that goes on behind a newline. -/
def extended (l : Lexer) (bs : List Char) : Lexer := { l with rest := l.rest ++ '\n' :: bs }

/-- The lexer of what stands behind the newline, from there on. -/
def beyond (l : Lexer) (bs : List Char) : Lexer :=
  { l with rest := bs, position := l.position.after (l.rest ++ ['\n']) }

/-- A call that finds a lexeme does not see the newline. -/
theorem next_extended {l : Lexer} (bs : List Char) {gap : List Char} {c : Char} {cs : List Char}
    (h : splitGap false l.rest = (gap, c :: cs)) :
    (l.extended bs).next = (l.next.1, l.next.2.extended bs) ∧
      l.next.2.beyond bs = l.beyond bs := by
  have hsplit : splitGap false (l.extended bs).rest = (gap, c :: (cs ++ '\n' :: bs)) := by
    show splitGap false (l.rest ++ '\n' :: bs) = _
    rw [splitGap_newline, h]
  have hrest : l.rest = gap ++ ((lexeme c cs).text ++ (lexeme c cs).rest) := by
    rw [lexeme_append, ← splitGap_append false l.rest, h]
  rw [next_at_lexeme h, next_at_lexeme hsplit, lexeme_newline]
  refine ⟨rfl, ?_⟩
  simp only [beyond, hrest, List.append_assoc, Position.after_append]

/-- A call that finds the end of input goes on behind the newline. -/
theorem next_beyond {l : Lexer} (bs : List Char) {gap : List Char}
    (h : splitGap false l.rest = (gap, [])) : (l.extended bs).next = (l.beyond bs).next := by
  have hgap : gap = l.rest := by
    rw [← splitGap_append false l.rest, h, List.append_nil]
  have hsplit : splitGap false (l.extended bs).rest =
      (l.rest ++ '\n' :: (splitGap false bs).1, (splitGap false bs).2) := by
    show splitGap false (l.rest ++ '\n' :: bs) = _
    rw [splitGap_newline, h, hgap]
  have hplace : (l.extended bs).position.after (l.rest ++ '\n' :: (splitGap false bs).1) =
      (l.beyond bs).position.after (splitGap false bs).1 := by
    show l.position.after _ = (l.position.after _).after _
    rw [← Position.after_append, List.append_assoc]
    rfl
  cases hbehind : splitGap false bs with
  | mk gap' rest =>
    rw [hbehind] at hsplit hplace
    cases rest with
    | nil => rw [next_at_end hsplit, next_at_end (l := l.beyond bs) hbehind, hplace]
    | cons c cs =>
      rw [next_at_lexeme hsplit, next_at_lexeme (l := l.beyond bs) hbehind, hplace]
      rfl

/-- Two lexers that find the same next scan the same. -/
theorem scan_congr {l l' : Lexer} (h : l.next = l'.next) : l.scan = l'.scan := by
  rw [scan.eq_1 l, scan.eq_1 l', h]

/-- The scan of a text that goes on behind a newline. -/
theorem scan_extended {l : Lexer} (hended : l.ended = false) (bs : List Char) :
    (l.extended bs).scan = l.scan.followedBy (l.beyond bs).scan := by
  fun_induction Lexer.scan l with
  | case1 l error h =>
    cases hsplit : splitGap false l.rest with
    | mk gap rest =>
      cases rest with
      | nil => rw [next_at_end hsplit] at h; cases h
      | cons c cs =>
        have hnext := congrArg Prod.fst (next_extended bs hsplit).1
        rw [scan_error (hnext.trans h)]
        rfl
  | case2 l token h hmore later ih =>
    cases hsplit : splitGap false l.rest with
    | mk gap rest =>
      cases rest with
      | nil => rw [next_at_end hsplit] at hmore; cases hmore
      | cons c cs =>
        obtain ⟨hnext, hbeyond⟩ := next_extended bs hsplit
        rw [scan_more ((congrArg Prod.fst hnext).trans h) (by rw [hnext]; exact hmore), hnext,
          ih hmore, hbeyond, Scan.followedBy_cons]
  | case3 l token h hlast =>
    cases hsplit : splitGap false l.rest with
    | mk gap rest =>
      cases rest with
      | nil => rw [scan_congr (next_beyond bs hsplit)]; rfl
      | cons c cs =>
        rw [next_at_lexeme hsplit] at hlast
        exact absurd hended hlast

theorem ofString_lines (a b : String) :
    ofString (a ++ "\n" ++ b) = (ofString a).extended b.toList := by
  simp [ofString, extended]

/-- What stands behind the newline is a text of its own but for what comes before. -/
theorem beyond_ofString (a b : String) : (ofString a).beyond b.toList =
    (ofString b).behind (.ofText (a.toList ++ ['\n'])) := by
  simp [ofString, beyond, behind, Position.start_after_newline]

/-- Two texts with a newline between them are scanned one after the other, the second one behind
the first one and the newline. -/
theorem scan_lines (a b : String) : (ofString (a ++ "\n" ++ b)).scan =
    (ofString a).scan.followedBy ((ofString b).scan.behind (.ofText (a.toList ++ ['\n']))) := by
  rw [ofString_lines, scan_extended rfl, beyond_ofString, scan_behind]

end Lexer

end Blockwork
