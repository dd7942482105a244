import Mathlib.Data.List.Find
import Blockwork.Proofs.EarliestError
import Blockwork.Proofs.LineBreaks
import Blockwork.Proofs.Start

/-!
# Texts with a newline between them

What comes behind the last token of a text is none of its business, as long as it begins with
something that can come behind an item. So a text that goes on behind a newline is parsed as if it
ended there, and then the parser goes on behind the newline, unless the text had its closing word.

* `topLevel_word`: the parser at a word of items, whatever comes behind it.
* `topLevel_done`: what the parser has passed over when it is done, and where it ends (`Ended`).
* `ItemsThen`: a text of items, and what comes behind them.
* `parse_behind_closing_word`: text behind a closing word is ignored, but for a fault at once.
* `parse_joined`: two texts, the first of which has no closing word.
-/

namespace Blockwork

open Grammar Blockwork.Parser

namespace Parser

variable {finish finish' : Except LexError Token} {seen : List String} {c r ts : List Token}

/-! ## The parser at a word -/

/-- A reader does not care how the scan goes on behind what it has read, if not with a fault at
once. -/
theorem Predictive.same {α : Type} {x : Reader α} {L : List Token.Kind → Prop} {a : α}
    (hx : Predictive ((c ++ r).length + 1) L x) (h : x finish (c ++ r) = .ok (a, r))
    (hr : ready finish' r = .ok ()) : x finish' (c ++ r) = .ok (a, r) := by
  obtain ⟨c', hc, -, hsame⟩ := hx.done (Nat.lt_add_one _) h
  obtain rfl : c = c' := List.append_cancel_right hc
  exact hsame finish' r ⟨hr, rfl⟩

/-- An end of input, wherever it stands. -/
def anyEnd : Token := ⟨.endOfInput, ⟨0, 0, 1, 0⟩⟩

theorem readSentence_word (d : Sentence) (hc : c.map Token.kind = d.word)
    (hb : Boundary (front r)) (hr : ready finish r = .ok ()) :
    readSentence finish (c ++ r) = .ok (d.tree, r) := by
  obtain ⟨h, hd⟩ : ∃ h, statement (.ok anyEnd) (c ++ r) = .ok (d.tree, ⟨r, h⟩) :=
    d.complete ⟨c, rfl, hc⟩ hb
  have hread : readSentence (.ok anyEnd) (c ++ r) = .ok (d.tree, r) := congrArg erase hd
  exact (predictive_sentence _).same hread hr

theorem readDeclaration_word (d : Declaration) (hc : c.map Token.kind = d.word)
    (hr : ready finish r = .ok ()) : readDeclaration finish (c ++ r) = .ok (d.tree, r) := by
  obtain ⟨h, hd⟩ : ∃ h, declaration (.ok anyEnd) (c ++ r) = .ok (d.tree, ⟨r, h⟩) :=
    d.complete ⟨c, rfl, hc⟩
  have hread : readDeclaration (.ok anyEnd) (c ++ r) = .ok (d.tree, r) := congrArg erase hd
  exact (predictive_declaration _).same hread hr

theorem ready_append (h : ready finish r = .ok ()) (c : List Token) :
    ready finish (c ++ r) = .ok () := by
  cases c with
  | nil => exact h
  | cons t c => rfl

theorem boundary_append {items : List Item} (hc : c.map Token.kind = word items)
    (hb : Boundary (front r)) : Boundary (front (c ++ r)) := by
  rw [front_eq_head] at hb
  rw [front_eq_head, List.map_append, hc]
  exact boundary_word items hb

theorem not_noSentence {word : Keyword} (h : word ∈ sentenceWords) :
    ¬ NoSentence (.keyword word) := by
  rintro (hclose | hprocedure)
  · exact hclose.stops.2 word h rfl
  · rw [Token.Kind.keyword.inj hprocedure] at h
    exact absurd h (by decide)

theorem find?_contains_append {names : List String} {name : String} (h : name ∉ names) :
    names.find? (seen ++ [name]).contains = names.find? seen.contains := by
  refine List.find?_congr fun x hx => ?_
  have hne : x ≠ name := fun he => h (he ▸ hx)
  simp [hne]

/-- The parser at a declaration, whatever comes behind it. -/
theorem topLevel_declaration (d : Declaration) (hc : c.map Token.kind = d.word)
    (hr : ready finish r = .ok ()) : topLevel finish seen (c ++ r) =
      if seen.contains d.name then .error (.duplicateProcedure d.name)
      else (d.tree.marker :: ·) <$> topLevel finish (seen ++ [d.name]) r := by
  have hk : front (c ++ r) = .keyword .procedure := by
    rw [front_eq_head, List.map_append, hc]
    rfl
  rw [topLevel_of_procedure hk, readDeclaration_word d hc hr]
  rfl

/-- The parser at a statement, whatever comes behind it. -/
theorem topLevel_sentence (d : Sentence) (hc : c.map Token.kind = d.word)
    (hb : Boundary (front r)) (hr : ready finish r = .ok ()) :
    topLevel finish seen (c ++ r) = (d.tree :: ·) <$> topLevel finish seen r := by
  obtain ⟨w, hmem, rest, hw⟩ := d.word_eq_cons
  have hk : front (c ++ r) = .keyword w := by
    rw [front_eq_head, List.map_append, hc, hw]
    rfl
  rw [topLevel_of_sentence (hk ▸ not_noSentence hmem), readSentence_word d hc hb hr]

/-- What comes of items in front of others. -/
theorem tree_append_map (items : List Item) (s : Statement)
    (x : Except ParseError (List Statement)) :
    (s :: ·) <$> ((tree items ++ ·) <$> x) = ((s :: tree items) ++ ·) <$> x := by
  cases x <;> rfl

/-- The parser passes over items whose names differ up to the first one whose name was declared
before, and goes on behind them if there is none. -/
theorem topLevel_word (items : List Item) (hc : c.map Token.kind = word items)
    (hb : Boundary (front r)) (hr : ready finish r = .ok ()) (hn : (declared items).Nodup) :
    topLevel finish seen (c ++ r) =
      match (declared items).find? seen.contains with
      | some name => .error (.duplicateProcedure name)
      | none => (tree items ++ ·) <$> topLevel finish (seen ++ declared items) r := by
  induction items generalizing c seen with
  | nil =>
    obtain rfl : c = [] := List.map_eq_nil_iff.1 hc
    simp [declared, tree]
  | cons item items ih =>
    obtain ⟨c₁, c₂, rfl, hc₁, hc₂⟩ := List.map_eq_append_iff.1 hc
    have hb₂ : Boundary (front (c₂ ++ r)) := boundary_append hc₂ hb
    have hr₂ : ready finish (c₂ ++ r) = .ok () := ready_append hr c₂
    rw [List.append_assoc]
    cases item with
    | declaration d =>
      have hdeclared : declared (.declaration d :: items) = d.name :: declared items := rfl
      rw [hdeclared] at hn ⊢
      obtain ⟨hd, hn⟩ := List.nodup_cons.1 hn
      rw [topLevel_declaration d hc₁ hr₂]
      by_cases hseen : seen.contains d.name = true
      · rw [if_pos hseen, List.find?_cons_of_pos hseen]
      · -- The names behind `d` differ from its own, so it clashes with none of them.
        rw [if_neg hseen, List.find?_cons_of_neg hseen, ih hc₂ hn, find?_contains_append hd,
          List.append_assoc]
        cases (declared items).find? seen.contains with
        | some name => rfl
        | none => exact tree_append_map items _ _
    | statement d =>
      have hdeclared : declared (.statement d :: items) = declared items := rfl
      rw [hdeclared] at hn ⊢
      rw [topLevel_sentence d hc₁ hb₂ hr₂, ih hc₂ hn]
      cases (declared items).find? seen.contains with
      | some name => rfl
      | none => exact tree_append_map items _ _

/-- At the front of a text, no name was declared before. -/
theorem topLevel_word_nil (items : List Item) (hc : c.map Token.kind = word items)
    (hb : Boundary (front r)) (hr : ready finish r = .ok ()) (hn : (declared items).Nodup) :
    topLevel finish [] (c ++ r) = (tree items ++ ·) <$> topLevel finish (declared items) r := by
  have hnone : (declared items).find? ([] : List String).contains = none := by simp
  rw [topLevel_word items hc hb hr hn, hnone]
  rfl

/-! ## Where the parser ends -/

/-- The parser ends in front of these tokens. If it is a closing word that they begin with, then it
has looked at what comes behind. -/
structure Ended (finish : Except LexError Token) (r : List Token) : Prop where
  ready : ready finish r = .ok ()
  closing : Closing (front r)
  behind : front r ≠ .endOfInput → Parser.ready finish r.tail = .ok ()

theorem Ended.topLevel (h : Ended finish r) : topLevel finish seen r = .ok [] := by
  obtain hk | hk | hk := h.closing
  · rw [topLevel_of_closing (.inl rfl) hk, h.behind (by simp [hk])]
    rfl
  · rw [topLevel_of_closing (.inr (.inl rfl)) hk, h.behind (by simp [hk])]
    rfl
  · rw [topLevel.eq_def]
    simp only [hk]
    rfl

theorem eq_ok_of_map {ε α β : Type} {x : Except ε α} {f : α → β} {b : β}
    (h : f <$> x = .ok b) : ∃ a, x = .ok a ∧ f a = b := by
  cases x with
  | ok a => cases h; exact ⟨a, rfl, rfl⟩
  | error e => cases h

/-- The parser has passed over items whose names differ from those declared before, and then it has
ended. -/
def Done (finish : Except LexError Token) (seen : List String) (ts : List Token)
    (ss : List Statement) : Prop :=
  ∃ items c r, ts = c ++ r ∧ c.map Token.kind = word items ∧ tree items = ss ∧
    (seen ++ declared items).Nodup ∧ Ended finish r

theorem Ended.done (h : Ended finish ts) (hseen : seen.Nodup) : Done finish seen ts [] :=
  ⟨[], [], ts, rfl, rfl, rfl, by simpa [declared] using hseen, h⟩

theorem Done.item {ss : List Statement} (item : Item) (hc : c.map Token.kind = item.word)
    (h : Done finish (seen ++ item.declared?.toList) r ss) :
    Done finish seen (c ++ r) (item.tree :: ss) := by
  obtain ⟨items, c₂, r₂, rfl, hc₂, rfl, hn, hended⟩ := h
  refine ⟨item :: items, c ++ c₂, r₂, by simp, by simp [hc, hc₂, word], rfl, ?_, hended⟩
  rwa [declared_cons, ← List.append_assoc]

theorem done_closing {word : Keyword} {ss : List Statement} (hword : Closing (.keyword word))
    (hk : front ts = .keyword word) (h : topLevel finish seen ts = .ok ss) (hseen : seen.Nodup)
    (hr : ready finish ts = .ok ()) : Done finish seen ts ss := by
  rw [topLevel_of_closing hword hk] at h
  cases hready : ready finish ts.tail with
  | error e => rw [hready] at h; cases h
  | ok =>
    rw [hready] at h
    cases h
    exact Ended.done ⟨hr, hk ▸ hword, fun _ => hready⟩ hseen

/-- What the parser has accepted are items whose names differ, and then it has ended. -/
theorem topLevel_done {ss : List Statement} (h : topLevel finish seen ts = .ok ss)
    (hseen : seen.Nodup) (hr : ready finish ts = .ok ()) : Done finish seen ts ss := by
  -- Each item uses up some tokens, and a reader never ends in front of a fault (`settled`).
  obtain ⟨l, hl⟩ : ∃ l, ts.length = l := ⟨_, rfl⟩
  induction l using Nat.strongRecOn generalizing seen ts ss with
  | ind l ih =>
    by_cases hk : NoSentence (front ts)
    · obtain (hk | hk | hk) | hk := hk
      · exact done_closing (.inl rfl) hk h hseen hr
      · exact done_closing (.inr (.inl rfl)) hk h hseen hr
      · have hended : Ended finish ts := ⟨hr, .inr (.inr hk), fun hne => absurd hk hne⟩
        rw [hended.topLevel] at h
        cases h
        exact hended.done hseen
      · rw [topLevel_of_procedure hk] at h
        split at h
        next p rest hread =>
          obtain ⟨hlt, -⟩ := erase_eq_ok hread
          have hrest := (predictive_declaration _).settled (Nat.lt_add_one _) hread hr
          obtain ⟨c, d, rfl, hc, rfl, -⟩ := readDeclaration_done hread
          split at h
          next => cases h
          next hnew =>
            obtain ⟨ss', hss, rfl⟩ := eq_ok_of_map h
            have hd : d.tree.name ∉ seen := by simpa using hnew
            exact Done.item (.declaration d) hc
              (ih rest.length (hl ▸ hlt) hss (nodup_append_name hseen hd) hrest rfl)
        next => cases h
    · rw [topLevel_of_sentence hk] at h
      split at h
      next s rest hread =>
        obtain ⟨hlt, -⟩ := erase_eq_ok hread
        have hrest := (predictive_sentence _).settled (Nat.lt_add_one _) hread hr
        obtain ⟨c, d, rfl, hc, rfl, -⟩ := readSentence_done hread
        obtain ⟨ss', hss, rfl⟩ := eq_ok_of_map h
        have hnone : seen ++ (Item.statement d).declared?.toList = seen := List.append_nil seen
        refine Done.item (.statement d) hc ?_
        rw [hnone]
        exact ih rest.length (hl ▸ hlt) hss hseen hrest rfl
      next => cases h

end Parser

/-! ## Texts that go on -/

/-- The tokens of the text are those of some items, then tokens of these kinds, and the end of
input. -/
def ItemsThen (source : String) (kinds : List Token.Kind) : Prop :=
  ∃ tokens items, tokenize source = .ok tokens ∧
    tokens.map Token.kind = word items ++ (kinds ++ [.endOfInput])

theorem ItemsThen.of_kinds {source : String} {kinds : List Token.Kind} (items : List Item)
    (h : (tokenize source).map (List.map Token.kind) =
      .ok (word items ++ (kinds ++ [.endOfInput]))) : ItemsThen source kinds := by
  obtain ⟨tokens, htokens, hkinds⟩ := eq_ok_of_map h
  exact ⟨tokens, items, htokens, hkinds⟩

namespace Parser

variable {finish : Except LexError Token} {ts : List Token}

theorem front_behind (lead : Lead) (ts : List Token) :
    front (ts.map (Token.behind lead)) = front ts := by
  cases ts <;> rfl

theorem ready_behind (lead : Lead) (h : ready finish ts = .ok ()) :
    ready (outcomeBehind lead finish) (ts.map (Token.behind lead)) = .ok () := by
  cases ts with
  | cons t ts => rfl
  | nil =>
    cases finish with
    | ok last => rfl
    | error e => cases h

theorem kinds_behind (lead : Lead) (ts : List Token) :
    (ts.map (Token.behind lead)).map Token.kind = ts.map Token.kind := by
  simp [Token.behind]

theorem Ended.behindLead (lead : Lead) (h : Ended finish ts) :
    Ended (outcomeBehind lead finish) (ts.map (Token.behind lead)) where
  ready := ready_behind lead h.ready
  closing := front_behind lead ts ▸ h.closing
  behind hne := by
    rw [← List.map_tail]
    exact ready_behind lead (h.behind (front_behind lead ts ▸ hne))

theorem parseTree_ready {source : String} {ss : List Statement} (h : parseTree source = .ok ss) :
    ready (Lexer.ofString source).scan.finish (Lexer.ofString source).scan.tokens = .ok () := by
  obtain ⟨_, hready, -⟩ := eq_ok_of_bind ((parseTree_eq source).symm.trans h)
  exact hready

theorem parseTree_of_ready {source : String}
    (h : ready (Lexer.ofString source).scan.finish (Lexer.ofString source).scan.tokens = .ok ()) :
    parseTree source =
      topLevel (Lexer.ofString source).scan.finish [] (Lexer.ofString source).scan.tokens := by
  rw [parseTree_eq, h]
  rfl

end Parser

/-- What the parser makes of the items in front of a closing word. -/
theorem ItemsThen.parsed {source : String} {kinds : List Token.Kind} {ss : List Statement}
    (h : ItemsThen source kinds) (hclose : Closing (head (kinds ++ [.endOfInput])))
    (hp : parseTree source = .ok ss) :
    ∃ items last, (Lexer.ofString source).scan.finish = .ok last ∧
      (Lexer.ofString source).scan.tokens.map Token.kind = word items ++ kinds ∧
      tree items = ss ∧ (declared items).Nodup := by
  obtain ⟨tokens, items, htokens, hkinds⟩ := h
  obtain ⟨items', hd, hn, rfl⟩ := (parseTree_eq_ok htokens ss).1 hp
  have hderives : Derives items (tokens.map Token.kind) := by
    cases kinds with
    | nil => exact ⟨_, [], hclose, hkinds⟩
    | cons kind kinds => exact ⟨kind, kinds ++ [Token.Kind.endOfInput], hclose, hkinds⟩
  obtain rfl := hderives.unique hd
  obtain ⟨last, hfinish, hlast, rfl⟩ := tokenize_eq_ok htokens
  refine ⟨items, last, hfinish, ?_, rfl, hn⟩
  rw [List.map_append, List.map_singleton, hlast, ← List.append_assoc] at hkinds
  exact List.append_cancel_right hkinds

/-- What comes before a text behind `a` and a newline. -/
def Lead.behind (a : String) : Lead := .ofText (a.toList ++ ['\n'])

/-- The scan of two texts, the first of which has no fault. -/
theorem Lexer.scan_joined {a : String} {last : Token} (b : String)
    (h : (ofString a).scan.finish = .ok last) : (ofString (a ++ "\n" ++ b)).scan =
      ⟨(ofString a).scan.tokens ++ (ofString b).scan.tokens.map (Token.behind (.behind a)),
        outcomeBehind (.behind a) (ofString b).scan.finish⟩ := by
  rw [scan_lines, Scan.followedBy, h]
  rfl

/-! ## Behind a closing word -/

/-- Text behind the closing word of a text is ignored, but for the first token there: it is not
used, but if there is a fault in its place, then this is the error. -/
theorem parse_behind_closing_word {a s : String} {p : Program} {word : Keyword}
    (ha : Program.parse a = .ok p) (hword : Closing (.keyword word))
    (hclosed : ItemsThen a [.keyword word]) :
    Program.parse (a ++ "\n" ++ s) =
      match (Lexer.ofString s).next.1 with
      | .ok _ => .ok p
      | .error fault => .error (.scan (fault.behind (.behind a))) := by
  obtain ⟨htree, henv⟩ := Program.parse_eq_ok ha
  obtain ⟨items, last, hfinish, hkinds, hitems, hn⟩ := hclosed.parsed hword htree
  obtain ⟨c, ts, hts, hc, ht⟩ := List.map_eq_append_iff.1 hkinds
  obtain ⟨t, rfl, hk⟩ := List.map_eq_singleton_iff.1 ht
  have hscan := Lexer.scan_joined s hfinish
  rw [hts, List.append_assoc, List.singleton_append] at hscan
  have hparse : parseTree (a ++ "\n" ++ s) = (tree items ++ ·) <$>
      (ready (outcomeBehind (.behind a) (Lexer.ofString s).scan.finish)
        ((Lexer.ofString s).scan.tokens.map (Token.behind (.behind a)))).map fun _ => [] := by
    have hb : Boundary (front (t :: (Lexer.ofString s).scan.tokens.map
        (Token.behind (.behind a)))) := by
      rw [front_cons, hk]
      exact .keyword word
    rw [parseTree_of_ready (by rw [hscan]; exact ready_append rfl c), hscan,
      topLevel_word_nil items hc hb rfl hn, topLevel_of_closing hword (by exact hk)]
    rfl
  have hok : Program.parse a = .ok ⟨tree items ++ [], .ofTree (tree items ++ [])⟩ := by
    rw [Program.parse_eq, htree, ← hitems, List.append_nil]
    rfl
  rw [Program.parse_eq, hparse, Lexer.next_of_scan, ← ha, hok]
  cases (Lexer.ofString s).scan.tokens with
  | cons t' ts' => rfl
  | nil => cases (Lexer.ofString s).scan.finish <;> rfl

/-- Behind the closing word, a name and then a fault, and the fault at once. -/
theorem parse_behind_closing_word_texts :
    Program.parse ("display x endfile" ++ "\n" ++ "x ?") = Program.parse "display x endfile" ∧
    Program.parse ("display x endfile" ++ "\n" ++ "? x") =
      .error (.scan ⟨.unexpected '?', 2, 1⟩) := by
  have ha : Program.parse "display x endfile" =
      .ok ⟨[.display (.variable "x")], { declared := ["x"] }⟩ := by
    decide +kernel
  have hclosed : ItemsThen "display x endfile" [.keyword .endfile] :=
    .of_kinds [.statement (.display (.chain (.chain (.chain (.variable "x") .done) .done) .done))]
      (by decide +kernel)
  have hword : Closing (.keyword .endfile) := .inr (.inl rfl)
  have hname : (Lexer.ofString "x ?").next.1 = .ok ⟨.identifier "x", ⟨0, 1, 1, 0⟩⟩ := by
    decide +kernel
  have hfault : (Lexer.ofString "? x").next.1 = .error ⟨.unexpected '?', 1, 1⟩ := by
    decide +kernel
  refine ⟨(parse_behind_closing_word ha hword hclosed).trans ?_,
    (parse_behind_closing_word ha hword hclosed).trans ?_⟩
  · rw [hname, ha]
  · rw [hfault]
    rfl

/-- So text behind a closing word is not always ignored: a fault at once is not. -/
theorem fault_behind_closing_word :
    ¬ ∀ (a s : String) (p : Program) (word : Keyword), Program.parse a = .ok p →
      Closing (.keyword word) → ItemsThen a [.keyword word] →
        Program.parse (a ++ "\n" ++ s) = .ok p := by
  intro h
  have ha : Program.parse "end" = .ok ⟨[], {}⟩ := by decide +kernel
  have hclosed : ItemsThen "end" [.keyword .end] := .of_kinds [] (by decide +kernel)
  have hfault : Program.parse ("end" ++ "\n" ++ "?") =
      .error (.scan ⟨.unexpected '?', 2, 1⟩) := by
    decide +kernel
  have hok := h "end" "?" _ .end ha (.inl rfl) hclosed
  rw [hfault] at hok
  cases hok

/-! ## Two texts -/

/-- The names of the procedures that a tree declares, in order. -/
def declaredNames (ss : List Statement) : List String :=
  (ss.filterMap Statement.procedure?).map Procedure.name

/-- The tree of two texts with a newline between them, the first of which has no closing word. -/
theorem parseTree_joined {a b : String} {ss tt : List Statement} (ha : parseTree a = .ok ss)
    (hopen : ItemsThen a []) (hb : parseTree b = .ok tt) :
    parseTree (a ++ "\n" ++ b) =
      match (declaredNames tt).find? (declaredNames ss).contains with
      | some name => .error (.duplicateProcedure name)
      | none => .ok (ss ++ tt) := by
  obtain ⟨items, last, hfinish, hkinds, rfl, hn⟩ := hopen.parsed (.inr (.inr rfl)) ha
  rw [List.append_nil] at hkinds
  have hready := parseTree_ready hb
  rw [parseTree_of_ready hready] at hb
  obtain ⟨items', c, r, hts, hc, rfl, hn', hended⟩ := topLevel_done hb List.nodup_nil hready
  have hscan := Lexer.scan_joined b hfinish
  rw [hts, List.map_append] at hscan
  -- The tokens of the second text where they stand now.
  replace hended := hended.behindLead (.behind a)
  replace hc : (c.map (Token.behind (.behind a))).map Token.kind = word items' :=
    (kinds_behind _ c).trans hc
  generalize c.map (Token.behind (.behind a)) = c' at hc hscan
  generalize r.map (Token.behind (.behind a)) = r' at hended hscan
  generalize outcomeBehind (.behind a) (Lexer.ofString b).scan.finish = finish at hended hscan
  have hbound : Boundary (front r') := hended.closing.stops.1
  have hr : ready finish (c' ++ r') = .ok () := ready_append hended.ready c'
  rw [parseTree_of_ready (by rw [hscan]; exact ready_append hr _), hscan,
    topLevel_word_nil items hkinds (boundary_append hc hbound) hr hn,
    topLevel_word items' hc hbound hended.ready hn', hended.topLevel, declaredNames,
    declaredNames, procedures_tree, procedures_tree]
  cases (declared items').find? (declared items).contains with
  | some name => rfl
  | none =>
    show Except.ok (tree items ++ (tree items' ++ [])) = _
    rw [List.append_nil]

namespace Program

/-- The names of a program's procedures, in the order of their declarations. -/
def procedureNames (p : Program) : List String :=
  p.environment.procedures.map Procedure.name

/-- The first name that `q` declares and `p` declares as well. -/
def clash? (p q : Program) : Option String :=
  q.procedureNames.find? p.procedureNames.contains

/-- Two programs, one after the other. -/
def append (p q : Program) : Program where
  tree := p.tree ++ q.tree
  environment :=
    { procedures := p.environment.procedures ++ q.environment.procedures
      declared := p.environment.declared ++
        q.environment.declared.filter (· ∉ p.environment.declared) }

theorem procedureNames_of_parse {source : String} {p : Program}
    (h : Program.parse source = .ok p) : p.procedureNames = declaredNames p.tree := by
  rw [procedureNames, (parse_eq_ok h).2, Environment.ofTree_eq, declaredNames]

end Program

/-- Two texts with a newline between them, the first of which has no closing word, are a program if
no procedure of the second one has the name of a procedure of the first one. It is the first program
followed by the second one. -/
theorem parse_joined {a b : String} {p q : Program} (ha : Program.parse a = .ok p)
    (hopen : ItemsThen a []) (hb : Program.parse b = .ok q) :
    Program.parse (a ++ "\n" ++ b) =
      match p.clash? q with
      | some name => .error (.duplicateProcedure name)
      | none => .ok (p.append q) := by
  obtain ⟨htree, henv⟩ := Program.parse_eq_ok ha
  obtain ⟨htree', henv'⟩ := Program.parse_eq_ok hb
  have happend : p.append q = ⟨p.tree ++ q.tree, .ofTree (p.tree ++ q.tree)⟩ := by
    rw [Environment.ofTree_append, ← henv, ← henv']
    rfl
  rw [Program.parse_eq, parseTree_joined htree hopen htree', Program.clash?,
    Program.procedureNames_of_parse ha, Program.procedureNames_of_parse hb, happend]
  cases (declaredNames q.tree).find? (declaredNames p.tree).contains <;> rfl

/-- A second text with another procedure, and one that declares the procedure again. -/
theorem parse_joined_texts :
    Program.parse ("procedure p() end display x" ++ "\n" ++
        "procedure q() end display y - x end )") =
      .ok ⟨[.procedure "p" [] [], .display (.variable "x"), .procedure "q" [] [],
          .display (.binary (.variable "y") .subtract (.variable "x"))],
        { procedures := [⟨"p", [], []⟩, ⟨"q", [], []⟩], declared := ["x", "y"] }⟩ ∧
    Program.parse ("procedure p() end display x" ++ "\n" ++
        "procedure q() end procedure p() end") =
      .error (.duplicateProcedure "p") := by
  have ha : Program.parse "procedure p() end display x" =
      .ok ⟨[.procedure "p" [] [], .display (.variable "x")],
        { procedures := [⟨"p", [], []⟩], declared := ["x"] }⟩ := by
    decide +kernel
  have hopen : ItemsThen "procedure p() end display x" [] :=
    .of_kinds [.declaration ⟨"p", [], .nil⟩,
      .statement (.display (.chain (.chain (.chain (.variable "x") .done) .done) .done))]
      (by decide +kernel)
  have hb : Program.parse "procedure q() end display y - x end )" =
      .ok ⟨[.procedure "q" [] [],
          .display (.binary (.variable "y") .subtract (.variable "x"))],
        { procedures := [⟨"q", [], []⟩], declared := ["y", "x"] }⟩ := by
    decide +kernel
  have hdouble : Program.parse "procedure q() end procedure p() end" =
      .ok ⟨[.procedure "q" [] [], .procedure "p" [] []],
        { procedures := [⟨"q", [], []⟩, ⟨"p", [], []⟩] }⟩ := by
    decide +kernel
  exact ⟨(parse_joined ha hopen hb).trans (by decide),
    (parse_joined ha hopen hdouble).trans (by decide)⟩

end Blockwork
