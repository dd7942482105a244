import Blockwork.Proofs.Lookahead
import Blockwork.Proofs.ParserComplete
import Blockwork.Proofs.Scanning

/-!
# The parser reports the first error

A text that the parser does not accept has a first place where it is wrong: some tokens that a
text of the grammar can begin with, and behind them a fault, or a token that no such text goes on
with, or the end of a procedure that is declared for the second time. This is what the parser
reports.

* `Accepted`, `Viable`: the texts of the grammar, whatever the names of their procedures, and what
  they can begin with. `Completable` is the same for kinds that need not come from a text.
* `topLevel_error`: where the parser gets stuck.
* `FirstError`: which error a text has first.
* `parse_reports_first_error`.
-/

namespace Blockwork

open Grammar Blockwork.Parser

namespace Grammar

/-! ## Beginnings of texts -/

/-- The token kinds of a text that the grammar accepts, whatever the names of its procedures. -/
def Accepted (kinds : List Token.Kind) : Prop :=
  (∃ source tokens, tokenize source = .ok tokens ∧ tokens.map Token.kind = kinds) ∧
    ∃ items, Derives items kinds

/-- A text that the grammar accepts can begin with these token kinds. -/
def Viable (kinds : List Token.Kind) : Prop :=
  ∃ more, Accepted (kinds ++ more)

theorem Viable.of_append {kinds more : List Token.Kind} (h : Viable (kinds ++ more)) :
    Viable kinds := by
  obtain ⟨rest, h⟩ := h
  exact ⟨more ++ rest, by rwa [← List.append_assoc]⟩

/-- Kinds that can be found in a text complete these ones to what the grammar derives. -/
def Completable (kinds : List Token.Kind) : Prop :=
  ∃ more items, AllProper more ∧ Derives items (kinds ++ (more ++ [.endOfInput]))

/-- Where the kinds can be found in a text, spelling them out gives the text. -/
theorem Completable.viable {kinds : List Token.Kind} (h : Completable kinds)
    (hkinds : AllProper kinds) : Viable kinds := by
  obtain ⟨more, items, hmore, hd⟩ := h
  obtain ⟨tokens, htokens, hall⟩ := tokenize_spell (allProper_append.2 ⟨hkinds, hmore⟩)
  refine ⟨more ++ [.endOfInput], ⟨_, tokens, htokens, ?_⟩, items, hd⟩
  rw [hall, List.append_assoc]

theorem completable_nil : Completable [] :=
  ⟨[], [], allProper_nil, .endOfInput, [], .inr (.inr rfl), rfl⟩

theorem completable_closing {word : Keyword} (h : Closing (.keyword word)) :
    Completable [.keyword word] :=
  ⟨[], [], allProper_nil, .keyword word, [.endOfInput], h, rfl⟩

/-- One item more in front. -/
theorem Completable.item (item : Item) {kinds : List Token.Kind} (h : Completable kinds) :
    Completable (item.word ++ kinds) := by
  obtain ⟨more, items, hmore, stop, rest, hstop, hw⟩ := h
  refine ⟨more, item :: items, hmore, stop, rest, hstop, ?_⟩
  rw [List.append_assoc, hw]
  simp [word]

theorem Completable.items (items : List Item) {kinds : List Token.Kind} (h : Completable kinds) :
    Completable (word items ++ kinds) := by
  induction items with
  | nil => exact h
  | cons item items ih =>
    have hcons : word (item :: items) ++ kinds = item.word ++ (word items ++ kinds) := by
      simp [word]
    exact hcons ▸ ih.item item

/-- What an item begins with. -/
theorem Completable.of_item {item : Item} {kinds more : List Token.Kind} (hmore : AllProper more)
    (h : item.word = kinds ++ more) : Completable kinds := by
  refine ⟨more, [item], hmore, .endOfInput, [], .inr (.inr rfl), ?_⟩
  rw [← List.append_assoc, ← h]
  simp [word]

end Grammar

/-! ## Where the parser gets stuck -/

namespace Parser

variable {finish : Except LexError Token} {seen : List String} {ts : List Token} {e : ParseError}

theorem topLevel_of_procedure (hk : front ts = .keyword .procedure) :
    topLevel finish seen ts =
      match readDeclaration finish ts with
      | .ok (p, rest) =>
        if seen.contains p.name then .error (.duplicateProcedure p.name)
        else (p.marker :: ·) <$> topLevel finish (seen ++ [p.name]) rest
      | .error e => .error e := by
  rw [topLevel.eq_def, readDeclaration]
  simp only [hk]
  rcases declaration finish ts with e | ⟨p, r, hr⟩
  · rfl
  · show (if seen.contains p.name then _ else _) = ite _ _ _
    split <;> rfl

theorem topLevel_of_closing {word : Keyword} (hword : Closing (.keyword word))
    (hk : front ts = .keyword word) :
    topLevel finish seen ts = (ready finish ts.tail).map fun _ => [] := by
  rw [topLevel.eq_def]
  obtain h | h | h := hword <;> cases h <;> simp only [hk] <;> rfl

theorem topLevel_of_sentence (hk : ¬ NoSentence (front ts)) :
    topLevel finish seen ts =
      match readSentence finish ts with
      | .ok (s, rest) => (s :: ·) <$> topLevel finish seen rest
      | .error e => .error e := by
  rw [topLevel_eq_sentence hk, readSentence]
  rcases statement finish ts with e | ⟨s, r, hr⟩ <;> rfl

theorem eq_error_of_map {ε α β : Type} {x : Except ε α} {f : α → β} {e : ε}
    (h : f <$> x = .error e) : x = .error e := by
  cases x with
  | ok a => cases h
  | error e' => cases h; rfl

theorem readDeclaration_done {p : Procedure} {r : List Token}
    (h : readDeclaration finish ts = .ok (p, r)) :
    ∃ c d, ts = c ++ r ∧ c.map Token.kind = Declaration.word d ∧ d.tree = p ∧
      ∀ finish' r', Passes finish' r' r → readDeclaration finish' (c ++ r') = .ok (p, r') := by
  obtain ⟨c, hts, -, hsame⟩ := (predictive_declaration (ts.length + 1)).done (by omega) h
  obtain ⟨hr, hd⟩ := erase_eq_ok h
  obtain ⟨d, ⟨first, hfirst, hw⟩, htree⟩ := declaration_sound hd
  obtain rfl : first = c := List.append_cancel_right (hfirst.symm.trans hts)
  exact ⟨first, d, hts, hw, htree, hsame⟩

theorem readSentence_done {s : Statement} {r : List Token}
    (h : readSentence finish ts = .ok (s, r)) :
    ∃ c d, ts = c ++ r ∧ c.map Token.kind = Sentence.word d ∧ d.tree = s ∧
      ∀ finish' r', Passes finish' r' r → readSentence finish' (c ++ r') = .ok (s, r') := by
  obtain ⟨c, hts, -, hsame⟩ := (predictive_sentence (ts.length + 1)).done (by omega) h
  obtain ⟨hr, hd⟩ := erase_eq_ok h
  obtain ⟨d, ⟨first, hfirst, hw⟩, htree⟩ :=
    sentence_sound finish (ts.length + 1) ts s ⟨r, hr⟩ (by omega) hd
  obtain rfl : first = c := List.append_cancel_right (hfirst.symm.trans hts)
  exact ⟨first, d, hts, hw, htree, hsame⟩

/-- The parser gets stuck in front of the tokens `r`, behind some that a text can begin with. Unless
it is a fault that it is stuck at, it would get stuck in front of all others that begin with a token
of the same kind. -/
def Stuck (finish : Except LexError Token) (seen : List String) (ts : List Token)
    (e : ParseError) : Prop :=
  ∃ c r expected, ts = c ++ r ∧ e = mismatch finish expected r ∧
    Completable (c.map Token.kind) ∧
    (ready finish r = .ok () → ∀ finish' r', Passes finish' r' r →
      topLevel finish' seen (c ++ r') = .error (mismatch finish' expected r'))

/-- The parser has read a declaration of a name that was declared before, for the first time. -/
def Doubled (seen : List String) (ts : List Token) (e : ParseError) : Prop :=
  ∃ items d c r, ts = c ++ r ∧ c.map Token.kind = word items ++ Declaration.word d ∧
    e = .duplicateProcedure d.name ∧ d.name ∈ seen ++ declared items ∧
    (seen ++ declared items).Nodup

theorem Stuck.item {c r : List Token} {seen' : List String} (item : Item)
    (hc : c.map Token.kind = item.word) (h : Stuck finish seen' r e)
    (hgo : ∀ finish' r' e', Passes finish' r' r → topLevel finish' seen' r' = .error e' →
      topLevel finish' seen (c ++ r') = .error e') : Stuck finish seen (c ++ r) e := by
  obtain ⟨c₂, r₂, expected, rfl, he, hcomplete, hsame⟩ := h
  refine ⟨c ++ c₂, r₂, expected, by simp, he, ?_, fun hready finish' r' hr' => ?_⟩
  · rw [List.map_append, hc]
    exact hcomplete.item item
  · rw [List.append_assoc]
    exact hgo _ _ _ (hr'.append c₂) (hsame hready finish' r' hr')

theorem Doubled.item {c r : List Token} (item : Item) (hc : c.map Token.kind = item.word)
    (h : Doubled (seen ++ item.declared?.toList) r e) : Doubled seen (c ++ r) e := by
  obtain ⟨items, d, c₂, r₂, rfl, hw, he, hmem, hn⟩ := h
  refine ⟨item :: items, d, c ++ c₂, r₂, by simp, by simp [hc, hw, word], he, ?_, ?_⟩ <;>
  · rw [declared_cons, ← List.append_assoc]
    assumption

/-- A reader that gets stuck at an item of a text. -/
theorem Predictive.stuck_item {α : Type} {x : Reader α} {L : List Token.Kind → Prop}
    (hx : Predictive (ts.length + 1) L x) (hL : ∀ w, L w → ∃ item, Item.word item = w)
    (h : x finish ts = .error e)
    (hgo : ∀ finish' ts' e', front ts' = front ts → x finish' ts' = .error e' →
      topLevel finish' seen ts' = .error e') : Stuck finish seen ts e := by
  obtain ⟨c, r, expected, rfl, he, ⟨w, hmore, hw⟩, hsame⟩ := hx.stuck (Nat.lt_add_one _) h
  obtain ⟨item, hitem⟩ := hL _ hw
  exact ⟨c, r, expected, rfl, he, .of_item hmore hitem, fun hready finish' r' hr' =>
    hgo _ _ _ (hr'.append c).front (hsame hready finish' r' hr')⟩

/-- Behind its closing word, a text may be faulty. -/
theorem stuck_closing {word : Keyword} (hword : Closing (.keyword word))
    (hk : front ts = .keyword word) (h : topLevel finish seen ts = .error e) :
    Stuck finish seen ts e := by
  rw [topLevel_of_closing hword hk] at h
  cases ts with
  | nil => cases hk
  | cons t rest =>
    rw [List.tail_cons] at h
    obtain hr | ⟨fault, rfl, rfl, hr⟩ := ready_cases finish rest <;> rw [hr] at h <;> cases h
    replace hk : t.kind = .keyword word := hk
    refine ⟨[t], [], .expression, rfl, rfl, ?_, fun hready => by cases hready⟩
    rw [List.map_singleton, hk]
    exact completable_closing hword

/-- Errors in texts of fewer than `n` tokens are where the parser gets stuck, or behind the second
declaration of a name. -/
def ErrorsBelow (finish : Except LexError Token) (n : Nat) : Prop :=
  ∀ (seen : List String) (ts : List Token) (e : ParseError), ts.length < n → seen.Nodup →
    topLevel finish seen ts = .error e → Stuck finish seen ts e ∨ Doubled seen ts e

/-- An error behind the first item. -/
theorem error_behind {n : Nat} (ih : ErrorsBelow finish n) {c r : List Token} (item : Item)
    (hl : (c ++ r).length < n + 1) (hc : c.map Token.kind = item.word)
    (hn : (seen ++ item.declared?.toList).Nodup)
    (h : topLevel finish (seen ++ item.declared?.toList) r = .error e)
    (hgo : ∀ finish' r' e', Passes finish' r' r →
      topLevel finish' (seen ++ item.declared?.toList) r' = .error e' →
      topLevel finish' seen (c ++ r') = .error e') :
    Stuck finish seen (c ++ r) e ∨ Doubled seen (c ++ r) e := by
  have hpos : 0 < c.length := by
    rw [← List.length_map (f := Token.kind), hc]
    obtain ⟨_, _, -, hw⟩ | ⟨_, _, _, -, -, hw⟩ := item.word_eq_cons <;> simp [hw]
  rw [List.length_append] at hl
  exact (ih _ r e (by omega) hn h).imp (Stuck.item item hc · hgo) (.item item hc)

theorem error_at_declaration {n : Nat} (ih : ErrorsBelow finish n) (hl : ts.length < n + 1)
    (hseen : seen.Nodup) (hk : front ts = .keyword .procedure)
    (h : topLevel finish seen ts = .error e) : Stuck finish seen ts e ∨ Doubled seen ts e := by
  rw [topLevel_of_procedure hk] at h
  cases hread : readDeclaration finish ts with
  | error e' =>
    rw [hread] at h
    cases h
    refine .inl ((predictive_declaration _).stuck_item (fun w ⟨d, hd⟩ => ⟨.declaration d, hd⟩)
      hread fun finish' ts' e' hk' he' => ?_)
    rw [topLevel_of_procedure (hk'.trans hk), he']
  | ok first =>
    obtain ⟨p, r⟩ := first
    obtain ⟨c, d, rfl, hc, rfl, hsame⟩ := readDeclaration_done hread
    simp only [hread, List.contains_eq_mem, decide_eq_true_eq] at h
    by_cases hdouble : d.tree.name ∈ seen
    · rw [if_pos hdouble] at h
      cases h
      exact .inr ⟨[], d, c, r, rfl, hc, rfl, List.mem_append_left _ hdouble,
        (List.append_nil seen).symm ▸ hseen⟩
    · rw [if_neg hdouble] at h
      have hn : (seen ++ [d.name]).Nodup := nodup_append_name hseen hdouble
      refine error_behind ih (.declaration d) hl hc hn (eq_error_of_map h)
        fun finish' r' e' hr' he' => ?_
      have hk' : front (c ++ r') = .keyword .procedure := (hr'.append c).front.trans hk
      replace he' : topLevel finish' (seen ++ [d.tree.name]) r' = .error e' := he'
      rw [topLevel_of_procedure hk', hsame finish' r' hr']
      simp only [List.contains_eq_mem, decide_eq_true_eq]
      rw [if_neg hdouble, he']
      rfl

theorem error_at_sentence {n : Nat} (ih : ErrorsBelow finish n) (hl : ts.length < n + 1)
    (hseen : seen.Nodup) (hk : ¬ NoSentence (front ts))
    (h : topLevel finish seen ts = .error e) : Stuck finish seen ts e ∨ Doubled seen ts e := by
  rw [topLevel_of_sentence hk] at h
  cases hread : readSentence finish ts with
  | error e' =>
    rw [hread] at h
    cases h
    refine .inl ((predictive_sentence _).stuck_item (fun w ⟨d, hd⟩ => ⟨.statement d, hd⟩) hread
      fun finish' ts' e' hk' he' => ?_)
    rw [topLevel_of_sentence (hk' ▸ hk), he']
  | ok first =>
    obtain ⟨s, r⟩ := first
    obtain ⟨c, d, rfl, hc, -, hsame⟩ := readSentence_done hread
    simp only [hread] at h
    have hnone : seen ++ (Item.statement d).declared?.toList = seen := List.append_nil seen
    refine error_behind ih (.statement d) hl hc (hnone.symm ▸ hseen)
      (hnone.symm ▸ eq_error_of_map h) fun finish' r' e' hr' he' => ?_
    rw [hnone] at he'
    rw [topLevel_of_sentence ((hr'.append c).front ▸ hk), hsame finish' r' hr']
    simp only [he']
    rfl

theorem errors_below (finish : Except LexError Token) (n : Nat) : ErrorsBelow finish n := by
  induction n with
  | zero => exact fun seen ts e hl => absurd hl (by omega)
  | succ n ih =>
    intro seen ts e hl hseen h
    by_cases hk : NoSentence (front ts)
    · obtain (hk | hk | hk) | hk := hk
      · exact .inl (stuck_closing (.inl rfl) hk h)
      · exact .inl (stuck_closing (.inr (.inl rfl)) hk h)
      · rw [topLevel.eq_def] at h
        simp only [hk] at h
        cases h
      · exact error_at_declaration ih hl hseen hk h
    · exact error_at_sentence ih hl hseen hk h

/-- Where the parser does not accept a text, it is stuck behind what a text can begin with, or
behind the second declaration of a name. -/
theorem topLevel_error (h : topLevel finish [] ts = .error e) :
    Stuck finish [] ts e ∨ Doubled [] ts e :=
  errors_below finish (ts.length + 1) [] ts e (Nat.lt_add_one _) List.nodup_nil h

/-- If the parser is stuck for want of another kind of token, then no text goes on with a token of
the kind that is there: the parser would be stuck in front of it as well. -/
theorem not_viable {c r : List Token} {expected : Expectation}
    (h : ∀ finish' r', Passes finish' r' r →
      topLevel finish' [] (c ++ r') = .error (mismatch finish' expected r')) :
    ¬ Viable (c.map Token.kind ++ [front r]) := by
  rintro ⟨more, ⟨source, all, htokens, hall⟩, items, hd⟩
  obtain ⟨last, -, hlast, rfl⟩ := tokenize_eq_ok htokens
  generalize (Lexer.ofString source).scan.tokens = body at hall
  rw [List.map_append, List.map_singleton, hlast, List.append_assoc, List.singleton_append] at hall
  obtain ⟨kinds, hkinds⟩ : ∃ kinds, front r :: more = kinds ++ [.endOfInput] := by
    obtain hnil | ⟨kinds, kind, hconcat⟩ := List.eq_nil_or_concat (front r :: more)
    · cases hnil
    · rw [List.concat_eq_append] at hconcat
      rw [hconcat, ← List.append_assoc] at hall
      exact ⟨kinds, by rw [hconcat, (List.append_inj' hall rfl).2]⟩
  -- Tokens of these kinds, wherever they stand.
  let tokens := kinds.map fun kind => (⟨kind, ⟨0, 0, 1, 0⟩⟩ : Token)
  have hpasses : Passes (.ok last) tokens r := by
    refine ⟨ready_ok last tokens, ?_⟩
    cases kinds with
    | nil => exact (List.cons.inj hkinds).1.symm
    | cons kind kinds => exact (List.cons.inj hkinds).1.symm
  have hderives : Derives items (((c ++ tokens) ++ [last]).map Token.kind) := by
    have hmap : tokens.map Token.kind = kinds := by simp [tokens, Function.comp_def]
    rw [List.append_assoc, List.singleton_append, hkinds] at hd
    simpa [hmap, hlast] using hd
  obtain ⟨rest, hr, hclose⟩ := hderives.reads hlast
  have hstuck := h _ _ hpasses
  have hmismatch : ∃ found line column, mismatch (.ok last) expected tokens =
      .mismatch expected found line column := by
    cases tokens <;> exact ⟨_, _, _, rfl⟩
  obtain ⟨_, _, _, hmismatch⟩ := hmismatch
  rw [hmismatch] at hstuck
  have hderived : topLevel (.ok last) [] (c ++ tokens) = .ok (tree items) ∨ _ :=
    topLevel_derived items hr hclose
  obtain hok | ⟨⟨name, hdouble⟩, -⟩ := hderived
  · cases hok.symm.trans hstuck
  · cases hdouble.symm.trans hstuck

end Parser

/-! ## The first error -/

/-- Which error a text has first, if it has one.

* A token: a text can begin with the tokens before it, but not with them and the token. There is one
  such token at most, since the tokens that a text can begin with have no other beginnings
  (`Viable.of_append`).
* A fault: a text can begin with the tokens before it.
* A declaration, up to its `end`: a text can begin with the tokens up to there. No two procedures
  before it have the same name, and one of them has its name. -/
def FirstError (source : String) : ParseError → Prop
  | .mismatch _ found line column => ∃ before t l,
    (Lexer.ofString source).Yields (before ++ [t]) l ∧
    t.kind = found ∧ t.span.line = line ∧ t.span.column + 1 = column ∧
    Viable (before.map Token.kind) ∧ ¬ Viable ((before ++ [t]).map Token.kind)
  | .scan fault => ∃ before l, (Lexer.ofString source).Yields before l ∧
    l.next.1 = .error fault ∧ Viable (before.map Token.kind)
  | .duplicateProcedure name => ∃ before l items d, (Lexer.ofString source).Yields before l ∧
    before.map Token.kind = word items ++ Declaration.word d ∧ Viable (before.map Token.kind) ∧
    (declared items).Nodup ∧ name ∈ declared items ∧ d.name = name

theorem proper_of_tokens {source : String} {c r : List Token}
    (h : (Lexer.ofString source).scan.tokens = c ++ r) : AllProper (c.map Token.kind) := by
  have hall := Lexer.proper_of_scan (l := Lexer.ofString source) rfl
  rw [h, List.map_append] at hall
  exact (allProper_append.1 hall).1

theorem firstError_of_stuck {source : String} {e : ParseError}
    (h : Stuck (Lexer.ofString source).scan.finish [] (Lexer.ofString source).scan.tokens e) :
    FirstError source e := by
  obtain ⟨c, r, expected, hts, rfl, hcomplete, hsame⟩ := h
  have hviable : Viable (c.map Token.kind) := hcomplete.viable (proper_of_tokens hts)
  obtain ⟨l, hy, hl⟩ := Lexer.yields_of_scan hts
  have hnext := l.next_of_scan
  have hend : ∀ last, (Lexer.ofString source).scan.finish = .ok last → last.kind = .endOfInput :=
    fun last => Lexer.kind_of_finish rfl
  rw [hl] at hnext
  generalize (Lexer.ofString source).scan.finish = finish at *
  cases r with
  | cons t rest =>
    refine ⟨c, t, _, hy.snoc hnext, rfl, rfl, rfl, hviable, ?_⟩
    rw [List.map_append]
    exact not_viable (hsame rfl)
  | nil =>
    cases finish with
    | ok last =>
      refine ⟨c, last, _, hy.snoc hnext, rfl, rfl, rfl, hviable, ?_⟩
      rw [List.map_append, List.map_singleton, hend last rfl]
      exact not_viable (hsame rfl)
    | error fault => exact ⟨c, l, hy, hnext, hviable⟩

theorem firstError_of_doubled {source : String} {e : ParseError}
    (h : Doubled [] (Lexer.ofString source).scan.tokens e) : FirstError source e := by
  obtain ⟨items, d, c, r, hts, hw, rfl, hmem, hn⟩ := h
  obtain ⟨l, hy, -⟩ := Lexer.yields_of_scan hts
  have hcomplete := (completable_nil.item (.declaration d)).items items
  rw [List.append_nil] at hcomplete
  have hviable : Viable (c.map Token.kind) := (hw ▸ hcomplete).viable (proper_of_tokens hts)
  exact ⟨c, l, items, d, hy, hw, hviable, hn, hmem, rfl⟩

/-- If a text is not accepted, then its first error is what the parser reports: with the place of
the token, the fault of the scan, or the name of the procedure. -/
theorem parse_reports_first_error {source : String} {e : ParseError}
    (h : Program.parse source = .error e) : FirstError source e := by
  rw [Program.parse_eq] at h
  have htree : parseTree source = .error e := eq_error_of_map h
  rw [parseTree_eq] at htree
  obtain hready | ⟨fault, hfinish, hnil, hready⟩ := ready_cases
    (Lexer.ofString source).scan.finish (Lexer.ofString source).scan.tokens
  · rw [hready] at htree
    obtain hstuck | hdoubled := topLevel_error htree
    · exact firstError_of_stuck hstuck
    · exact firstError_of_doubled hdoubled
  · rw [hready] at htree
    cases htree
    refine ⟨[], Lexer.ofString source, .nil _, ?_, completable_nil.viable allProper_nil⟩
    rw [Lexer.next_of_scan, hnil, hfinish]

/-- A text with a fault, a text that breaks off, and a text with a name that is declared twice. -/
theorem parse_reports_first_error_texts :
    (Program.parse "display 1 + ? end" = .error (.scan ⟨.unexpected '?', 1, 13⟩) ∧
      FirstError "display 1 + ? end" (.scan ⟨.unexpected '?', 1, 13⟩)) ∧
    (Program.parse "assign x = (1" =
        .error (.mismatch (.kind (.symbol .rightParen)) .endOfInput 1 14) ∧
      FirstError "assign x = (1"
        (.mismatch (.kind (.symbol .rightParen)) .endOfInput 1 14)) ∧
    (Program.parse "procedure p() end procedure p() end )" = .error (.duplicateProcedure "p") ∧
      FirstError "procedure p() end procedure p() end )" (.duplicateProcedure "p")) := by
  have hfault : Program.parse "display 1 + ? end" = .error (.scan ⟨.unexpected '?', 1, 13⟩) := by
    decide +kernel
  have hend : Program.parse "assign x = (1" =
      .error (.mismatch (.kind (.symbol .rightParen)) .endOfInput 1 14) := by
    decide +kernel
  have hdouble : Program.parse "procedure p() end procedure p() end )" =
      .error (.duplicateProcedure "p") := by
    decide +kernel
  exact ⟨⟨hfault, parse_reports_first_error hfault⟩, ⟨hend, parse_reports_first_error hend⟩,
    ⟨hdouble, parse_reports_first_error hdouble⟩⟩

end Blockwork
