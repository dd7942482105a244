import Blockwork.Proofs.Lexemes
import Blockwork.Proofs.Scanning

/-!
# Which tokens a text has

The rules for the tokens of a text, without the lexer: lexemes in order, each as long as it can be,
and nothing but blanks and comments before, between and behind them.

* `Gap`: blanks and comments in front of a text.
* `Mark`, `Cut`: a token without its line and column, and the text that stands at its place.
* `Tokenized`: the tokens of a text by the rules.
* `Marked`: the same, read from left to right. `marked_of_scan`, `scan_of_marked` tie it to the
  lexer, `Marked.tokenized`, `Tokenized.marked` to the rules.
* `tokenize_iff_tokenized`: scanning yields exactly the tokens that the rules give.
-/

namespace Blockwork

/-! ## Gaps -/

/-- Blanks and comments in front of a text. A comment runs up to a newline or to the end. -/
inductive Gap : List Char → List Char → Prop where
  | nil (rest : List Char) : Gap [] rest
  | blank {c : Char} {gap rest : List Char} (hc : isBlank c = true) (h : Gap gap rest) :
    Gap (c :: gap) rest
  | comment {body gap rest : List Char} (hbody : '\n' ∉ body)
    (hend : ∀ c ∈ (gap ++ rest).head?, c = '\n') (h : Gap gap rest) :
    Gap ('/' :: '/' :: (body ++ gap)) rest

/-- A comment is split off as a whole. -/
theorem splitGap_comment (cs : List Char) : splitGap true cs =
    (cs.takeWhile (· != '\n') ++ (splitGap false (cs.dropWhile (· != '\n'))).1,
      (splitGap false (cs.dropWhile (· != '\n'))).2) := by
  induction cs with
  | nil => rfl
  | cons c cs ih =>
    by_cases hc : c = '\n'
    · subst hc
      simp [splitGap]
    · rw [splitGap, if_pos (by simp [hc]), ih]
      simp [hc]

theorem splitGap_slashes (cs : List Char) : splitGap false ('/' :: '/' :: cs) =
    ('/' :: '/' :: (cs.takeWhile (· != '\n') ++ (splitGap false (cs.dropWhile (· != '\n'))).1),
      (splitGap false (cs.dropWhile (· != '\n'))).2) := by
  rw [splitGap, if_pos (by simp), splitGap_comment]
  simp

theorem splitGap_blank {c : Char} (hc : isBlank c = true) (cs : List Char) :
    splitGap false (c :: cs) = (c :: (splitGap false cs).1, (splitGap false cs).2) := by
  have hslash : c ≠ '/' := by
    rintro rfl
    revert hc
    decide
  rw [splitGap, if_neg (by simp [hslash]), if_pos hc]

/-- What is split off is a gap, and no gap follows it. -/
theorem gap_splitGap (cs : List Char) :
    Gap (splitGap false cs).1 (splitGap false cs).2 ∧ Solid (splitGap false cs).2 := by
  induction hn : cs.length using Nat.strongRecOn generalizing cs with
  | ind n ih =>
    subst hn
    cases cs with
    | nil => exact ⟨.nil _, solid_nil⟩
    | cons c cs =>
      by_cases hcomment : c = '/' ∧ cs.head? = some '/'
      · obtain ⟨rfl, hhead⟩ := hcomment
        obtain ⟨ds, rfl⟩ := List.head?_eq_some_iff.1 hhead
        have hshorter := (List.dropWhile_suffix (l := ds) (· != '\n')).length_le
        obtain ⟨hgap, hsolid⟩ := ih _ (by simp only [List.length_cons]; omega)
          (ds.dropWhile (· != '\n')) rfl
        rw [splitGap_slashes]
        refine ⟨.comment (fun hmem => ?_) (fun c hc => ?_) hgap, hsolid⟩
        · have := List.all_eq_true.1 List.all_takeWhile _ hmem
          simp at this
        · rw [splitGap_append] at hc
          simpa using head?_dropWhile c hc
      · by_cases hblank : isBlank c = true
        · obtain ⟨hgap, hsolid⟩ := ih _ (by simp) cs rfl
          rw [splitGap_blank hblank]
          exact ⟨.blank hblank hgap, hsolid⟩
        · have hsolid : Solid (c :: cs) := solid_cons.2 ⟨by simpa using hblank, hcomment⟩
          rw [hsolid]
          exact ⟨.nil _, hsolid⟩

/-- A gap is split off as a whole if no gap follows it. -/
theorem Gap.splitGap {gap rest : List Char} (h : Gap gap rest) (hsolid : Solid rest) :
    splitGap false (gap ++ rest) = (gap, rest) := by
  induction h with
  | nil rest => exact hsolid
  | blank hc h ih => rw [List.cons_append, splitGap_blank hc, ih hsolid]
  | @comment body gap rest hbody hend h ih =>
    have hrun : (body ++ (gap ++ rest)).takeWhile (· != '\n') = body ∧
        (body ++ (gap ++ rest)).dropWhile (· != '\n') = gap ++ rest :=
      run_ends (fun c hc => by simpa using fun heq : c = '\n' => hbody (heq ▸ hc))
        (fun c hc => by simpa using hend c hc)
    rw [List.cons_append, List.cons_append, List.append_assoc, splitGap_slashes, hrun.1, hrun.2,
      ih hsolid]

/-! ## Places in bytes -/

/-- The number of bytes of a text. -/
def byteSize (cs : List Char) : Nat := (String.ofList cs).utf8ByteSize

@[simp] theorem byteSize_nil : byteSize [] = 0 := rfl

@[simp] theorem byteSize_cons (c : Char) (cs : List Char) :
    byteSize (c :: cs) = c.utf8Size + byteSize cs := by
  simp [byteSize, String.ofList_cons]

@[simp] theorem byteSize_append (as bs : List Char) :
    byteSize (as ++ bs) = byteSize as + byteSize bs := by
  simp [byteSize, String.ofList_append]

theorem byteSize_toList (source : String) : byteSize source.toList = source.utf8ByteSize := by
  rw [byteSize, String.ofList_toList]

theorem eq_nil_of_byteSize {cs : List Char} (h : byteSize cs = 0) : cs = [] := by
  cases cs with
  | nil => rfl
  | cons c cs =>
    rw [byteSize_cons] at h
    have := c.utf8Size_pos
    omega

/-- Two parts of a text at the same place are equal. -/
theorem eq_of_append_eq {as bs as' bs' : List Char} (h : as ++ bs = as' ++ bs')
    (hsize : byteSize as = byteSize as') : as = as' ∧ bs = bs' := by
  obtain ⟨more, rfl, rfl⟩ | ⟨more, rfl, rfl⟩ := List.append_eq_append_iff.1 h
  · obtain rfl : more = [] := eq_nil_of_byteSize (by rw [byteSize_append] at hsize; omega)
    simp
  · obtain rfl : more = [] := eq_nil_of_byteSize (by rw [byteSize_append] at hsize; omega)
    simp

theorem Position.after_append (p : Position) (as bs : List Char) :
    p.after (as ++ bs) = (p.after as).after bs :=
  List.foldl_append

theorem Position.offset_after (p : Position) (cs : List Char) :
    (p.after cs).offset = p.offset + byteSize cs := by
  induction cs generalizing p with
  | nil => rfl
  | cons c cs ih =>
    have hnext : (p.next c).offset = p.offset + c.utf8Size := by
      unfold next
      split <;> rfl
    have hstep := ih (p.next c)
    rw [hnext] at hstep
    rw [byteSize_cons, ← Nat.add_assoc]
    exact hstep

/-- A token without its line and column. -/
structure Mark where
  kind : Token.Kind
  start : Nat
  stop : Nat
  deriving DecidableEq, Repr

def Token.mark (t : Token) : Mark := ⟨t.kind, t.span.start, t.span.stop⟩

/-- The token for the end of input in a text of some bytes. -/
def Mark.ending (size : Nat) : Mark := ⟨.endOfInput, size, size⟩

/-! ## The rules -/

/-- A text stands between two bytes of a source, in front of the rest of the source. -/
def Cut (source : List Char) (start stop : Nat) (text rest : List Char) : Prop :=
  ∃ before, source = before ++ (text ++ rest) ∧ byteSize before = start ∧
    start + byteSize text = stop

/-- The places before, between and behind tokens. -/
def gapSpans (start stop : Nat) : List Mark → List (Nat × Nat)
  | [] => [(start, stop)]
  | m :: ms => (start, m.start) :: gapSpans m.stop stop ms

/-- The tokens of a source from some byte on, by the rules. -/
structure Tokenized (source : List Char) (start : Nat) (marks : List Mark) : Prop where
  noEnding : ∀ m ∈ marks, m.kind ≠ .endOfInput
  nonempty : ∀ m ∈ marks, m.start < m.stop
  ordered : marks.Pairwise fun a b => a.stop ≤ b.start
  /-- At the place of a token stands a lexeme that is as long as it can be. -/
  lexemes : ∀ m ∈ marks, ∃ text rest, Cut source m.start m.stop text rest ∧
    m.kind.Spells text ∧ m.kind.Ends rest
  /-- All other text is blanks and comments. -/
  gaps : ∀ span ∈ gapSpans start (byteSize source) marks, ∃ text rest,
    Cut source span.1 span.2 text rest ∧ Gap text rest

/-- The tokens of a text, read from left to right; the first byte of the text has a number. -/
inductive Marked : Nat → List Char → List Mark → Prop where
  | done {n : Nat} {gap : List Char} (h : Gap gap []) : Marked n gap []
  | token {n : Nat} {gap text rest : List Char} {kind : Token.Kind} {marks : List Mark}
    (hgap : Gap gap (text ++ rest)) (hkind : kind ≠ .endOfInput) (hs : kind.Spells text)
    (he : kind.Ends rest) (h : Marked (n + byteSize gap + byteSize text) rest marks) :
    Marked n (gap ++ (text ++ rest))
      (⟨kind, n + byteSize gap, n + byteSize gap + byteSize text⟩ :: marks)

/-! ## The rules and reading -/

theorem Marked.start_le {n : Nat} {cs : List Char} {marks : List Mark} (h : Marked n cs marks) :
    ∀ m ∈ marks, n ≤ m.start := by
  induction h with
  | done => exact List.forall_mem_nil _
  | token hgap hkind hs he h ih =>
    refine List.forall_mem_cons.2 ⟨Nat.le_add_right _ _, fun m hm => ?_⟩
    have := ih m hm
    omega

/-- What is read from left to right follows the rules. -/
theorem Marked.tokenized {n : Nat} {cs : List Char} {marks : List Mark} (h : Marked n cs marks)
    (before : List Char) (hbefore : byteSize before = n) : Tokenized (before ++ cs) n marks := by
  induction h generalizing before with
  | @done n gap h =>
    refine ⟨by simp, by simp, .nil, by simp, ?_⟩
    simp only [gapSpans, List.mem_singleton, forall_eq]
    exact ⟨gap, [], ⟨before, by simp, hbefore, by simp [hbefore]⟩, h⟩
  | @token n gap text rest kind marks hgap hkind hs he h ih =>
    have hpos : 0 < byteSize text := by
      obtain ⟨c, cs, rfl, -⟩ := lexeme_of_spells hkind hs he
      rw [byteSize_cons]
      have := c.utf8Size_pos
      omega
    have hrest := ih (before ++ gap ++ text) (by simp [hbefore, Nat.add_assoc])
    have hsource : before ++ gap ++ text ++ rest = before ++ (gap ++ (text ++ rest)) := by simp
    rw [hsource] at hrest
    refine ⟨List.forall_mem_cons.2 ⟨hkind, hrest.noEnding⟩,
      List.forall_mem_cons.2 ⟨Nat.lt_add_of_pos_right hpos, hrest.nonempty⟩,
      List.pairwise_cons.2 ⟨h.start_le, hrest.ordered⟩,
      List.forall_mem_cons.2 ⟨?_, hrest.lexemes⟩, List.forall_mem_cons.2 ⟨?_, hrest.gaps⟩⟩
    · exact ⟨text, rest, ⟨before ++ gap, by simp, by simp [hbefore], rfl⟩, hs, he⟩
    · exact ⟨gap, text ++ rest, ⟨before, rfl, hbefore, rfl⟩, hgap⟩

/-- The rules for the tokens behind the first one. -/
theorem Tokenized.tail {source : List Char} {n : Nat} {m : Mark} {marks : List Mark}
    (h : Tokenized source n (m :: marks)) : Tokenized source m.stop marks where
  noEnding := (List.forall_mem_cons.1 h.noEnding).2
  nonempty := (List.forall_mem_cons.1 h.nonempty).2
  ordered := (List.pairwise_cons.1 h.ordered).2
  lexemes := (List.forall_mem_cons.1 h.lexemes).2
  gaps := (List.forall_mem_cons.1 h.gaps).2

/-- What stands at a place is determined by its bytes. -/
theorem Cut.eq {before cs text rest : List Char} {start stop : Nat}
    (h : Cut (before ++ cs) start stop text rest) (hstart : byteSize before = start) :
    cs = text ++ rest ∧ stop = start + byteSize text := by
  obtain ⟨before', hsource, hbefore, hstop⟩ := h
  exact ⟨(eq_of_append_eq hsource (hstart.trans hbefore.symm)).2, hstop.symm⟩

/-- What follows the rules can be read from left to right. -/
theorem Tokenized.marked (before : List Char) {cs : List Char} {n : Nat} {marks : List Mark}
    (h : Tokenized (before ++ cs) n marks) (hbefore : byteSize before = n) : Marked n cs marks := by
  induction marks generalizing before cs n with
  | nil =>
    obtain ⟨text, rest, hcut, hgap⟩ := h.gaps _ (List.mem_singleton.2 rfl)
    obtain ⟨rfl, hstop⟩ := hcut.eq hbefore
    obtain rfl : rest = [] := by
      refine eq_nil_of_byteSize ?_
      simp only [byteSize_append] at hstop
      omega
    rw [List.append_nil]
    exact .done hgap
  | cons m marks ih =>
    obtain ⟨gap, rest₁, hcut₁, hgap⟩ := h.gaps _ List.mem_cons_self
    obtain ⟨rfl, hstart⟩ := hcut₁.eq hbefore
    replace hstart : m.start = n + byteSize gap := hstart
    obtain ⟨text, rest, hcut, hs, he⟩ := h.lexemes m List.mem_cons_self
    rw [← List.append_assoc] at hcut
    obtain ⟨rfl, hstop⟩ := hcut.eq (by rw [byteSize_append, hbefore, hstart])
    obtain ⟨kind, start, stop⟩ := m
    obtain rfl : start = n + byteSize gap := hstart
    obtain rfl : stop = n + byteSize gap + byteSize text := hstop
    have htail := h.tail
    have hsource : before ++ (gap ++ (text ++ rest)) = before ++ gap ++ text ++ rest := by simp
    rw [hsource] at htail
    exact .token hgap (h.noEnding _ List.mem_cons_self) hs he
      (ih _ htail (by simp [hbefore, Nat.add_assoc]))

/-! ## Reading and the lexer -/

namespace Lexer

variable {l : Lexer}

/-- A call that finds the end of input. -/
theorem next_ending {gap : List Char} (h : splitGap false l.rest = (gap, [])) :
    Gap l.rest [] ∧ l.next.2.ended = true ∧
      ∃ t, l.next.1 = .ok t ∧ t.mark = .ending (l.position.offset + byteSize l.rest) := by
  have hrest := splitGap_append false l.rest
  have hgap := (gap_splitGap l.rest).1
  rw [h] at hrest hgap
  replace hrest : gap = l.rest := (List.append_nil gap).symm.trans hrest
  subst hrest
  rw [next_at_end h]
  refine ⟨hgap, rfl, _, rfl, ?_⟩
  rw [← Position.offset_after]
  rfl

/-- A call that finds a token. -/
theorem next_mark {gap : List Char} {c : Char} {cs : List Char} {kind : Token.Kind}
    (h : splitGap false l.rest = (gap, c :: cs)) (hkind : (lexeme c cs).reading = .ok kind) :
    let start := l.position.offset + byteSize gap
    let stop := start + byteSize (lexeme c cs).text
    l.next.2.ended = l.ended ∧ l.next.2.rest = (lexeme c cs).rest ∧
      l.next.2.position.offset = stop ∧
      ∃ t, l.next.1 = .ok t ∧ t.mark = ⟨kind, start, stop⟩ := by
  rw [next_at_lexeme h, hkind]
  refine ⟨rfl, rfl, ?_, _, rfl, ?_⟩
  · rw [Position.offset_after, Position.offset_after]
  · rw [← Position.offset_after, ← Position.offset_after]
    rfl

/-- What is scanned can be read from left to right. -/
theorem marked_of_scan {last : Token} (hended : l.ended = false) (h : l.scan.finish = .ok last) :
    Marked l.position.offset l.rest (l.scan.tokens.map Token.mark) ∧
      last.mark = .ending (l.position.offset + byteSize l.rest) := by
  fun_induction Lexer.scan l with
  | case1 => cases h
  | case2 l token hnext hmore later ih =>
    obtain ⟨hgap, hsolid⟩ := gap_splitGap l.rest
    have hrest := splitGap_append false l.rest
    cases hsplit : splitGap false l.rest with
    | mk gap rest =>
      rw [hsplit] at hgap hsolid hrest
      cases rest with
      | nil =>
        rw [(next_ending hsplit).2.1] at hmore
        cases hmore
      | cons c cs =>
        cases hreading : (lexeme c cs).reading with
        | error fault =>
          rw [next_at_lexeme hsplit, hreading] at hnext
          cases hnext
        | ok kind =>
          obtain ⟨hkind, hs, he⟩ := lexeme_spells hreading
          obtain ⟨-, hrest', hposition, t, hnext', hmark⟩ := next_mark hsplit hreading
          obtain rfl : token = t := by simpa [hnext] using hnext'
          obtain ⟨hmarked, hlast⟩ := ih hmore h
          rw [hposition, hrest'] at hmarked hlast
          rw [← lexeme_append c cs] at hgap hrest
          rw [List.map_cons, hmark, ← hrest]
          refine ⟨.token hgap hkind hs (he hsolid) hmarked, ?_⟩
          rw [hlast]
          simp [Nat.add_assoc]
  | case3 l token hnext hlast =>
    cases h
    cases hsplit : splitGap false l.rest with
    | mk gap rest =>
      cases rest with
      | nil =>
        obtain ⟨hgap, -, t, hnext', hmark⟩ := next_ending hsplit
        obtain rfl : last = t := by simpa [hnext] using hnext'
        exact ⟨.done hgap, hmark⟩
      | cons c cs =>
        rw [next_at_lexeme hsplit] at hlast
        exact absurd hended hlast

/-- What can be read from left to right is scanned. -/
theorem scan_of_marked {n : Nat} {cs : List Char} {marks : List Mark} (h : Marked n cs marks)
    (hended : l.ended = false) (hrest : l.rest = cs) (hposition : l.position.offset = n) :
    l.scan.tokens.map Token.mark = marks ∧ ∃ last, l.scan.finish = .ok last := by
  induction h generalizing l with
  | @done n gap h =>
    have hsplit : splitGap false l.rest = (gap, []) := by
      rw [hrest, ← List.append_nil gap]
      simpa using h.splitGap solid_nil
    obtain ⟨-, hlast, t, hnext, -⟩ := next_ending hsplit
    rw [scan_last hnext hlast]
    exact ⟨rfl, t, rfl⟩
  | @token n gap text rest kind marks hgap hkind hs he h ih =>
    obtain ⟨c, cs, rfl, hsolid, hlexeme⟩ := lexeme_of_spells hkind hs he
    have hsplit : splitGap false l.rest = (gap, c :: (cs ++ rest)) := by
      rw [hrest]
      exact hgap.splitGap hsolid
    obtain ⟨hended', hrest', hposition', t, hnext, hmark⟩ := next_mark hsplit (by rw [hlexeme])
    rw [hlexeme] at hrest' hposition' hmark
    rw [hposition] at hposition' hmark
    obtain ⟨htokens, last, hfinish⟩ := ih (hended'.trans hended) hrest' hposition'
    rw [scan_more hnext (hended'.trans hended)]
    refine ⟨?_, last, hfinish⟩
    rw [List.map_cons, hmark, htokens]

end Lexer

/-! ## Whole texts -/

/-- Scanning a source yields some tokens if and only if they are those that the rules give: lexemes
that are as long as they can be, in order and apart from each other, with nothing but blanks and
comments before, between and behind them, and then the end of input at the last byte. -/
theorem tokenize_iff_tokenized (source : String) (marks : List Mark) :
    (tokenize source).map (List.map Token.mark) = .ok marks ↔
      ∃ tokens, marks = tokens ++ [.ending source.utf8ByteSize] ∧
        Tokenized source.toList 0 tokens := by
  have hsize : (Lexer.ofString source).position.offset +
      byteSize (Lexer.ofString source).rest = source.utf8ByteSize := by
    rw [← byteSize_toList]
    exact Nat.zero_add _
  have htokenize : tokenize source = (Lexer.ofString source).scan.finish.map fun last =>
      (Lexer.ofString source).scan.tokens ++ [last] := rfl
  cases hfinish : (Lexer.ofString source).scan.finish with
  | error e =>
    rw [htokenize, hfinish]
    refine ⟨nofun, ?_⟩
    rintro ⟨tokens, -, h⟩
    obtain ⟨-, last, hlast⟩ := Lexer.scan_of_marked (l := .ofString source)
      (h.marked [] rfl) rfl rfl rfl
    rw [hfinish] at hlast
    cases hlast
  | ok last =>
    obtain ⟨hmarked, hmark⟩ := Lexer.marked_of_scan rfl hfinish
    rw [hsize] at hmark
    rw [htokenize, hfinish]
    constructor
    · intro h
      replace h := Except.ok.inj h
      refine ⟨_, ?_, hmarked.tokenized [] rfl⟩
      rw [← h, List.map_append, ← hmark]
      rfl
    · rintro ⟨tokens, rfl, h⟩
      obtain ⟨htokens, -⟩ := Lexer.scan_of_marked (l := .ofString source)
        (h.marked [] rfl) rfl rfl rfl
      show Except.ok (List.map Token.mark ((Lexer.ofString source).scan.tokens ++ [last])) = _
      rw [List.map_append, htokens, ← hmark]
      rfl

end Blockwork
