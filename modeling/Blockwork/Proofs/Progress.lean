import Blockwork.Proofs.EarliestError
import Blockwork.Proofs.Following

/-!
# The parser makes progress

The descent of a text follows the parser part by part, so it ends as the parser does. Each turn of
its loops and each of its functions asks for a token at least, and the only rounds that do not are
those that an error cuts off. Between them all, the lexer is asked for each token once at most.

* `follows_phrase`, `follows_statement`, `follows_declaration`: the functions, by induction on the
  bound that they get. Four calls go down for each token, one for each tier.
* `Ends`: how the descent of a text ends; `program_ends`: the loop of the outermost level, by
  induction on the number of tokens.
* `Progresses`, `descent_progresses`: all of it, for each source text.
-/

namespace Blockwork

/-- Of what calls of a lexer yield, only the last can be the end of input or a fault. -/
theorem Lexer.ok_of_mem_dropLast {l : Lexer} (hended : l.ended = false)
    {scanned : List (Except LexError Token)} (h : scanned <+: l.scan.outcomes)
    {o : Except LexError Token} (ho : o ∈ scanned.dropLast) :
    ∃ t, o = .ok t ∧ t.kind ≠ .endOfInput := by
  have hmem : o ∈ l.scan.tokens.map Except.ok := by
    obtain rfl | h := List.prefix_concat_iff.1 h
    · rwa [List.dropLast_concat] at ho
    · exact h.subset (List.dropLast_subset _ ho)
  obtain ⟨t, ht, rfl⟩ := List.mem_map.1 hmem
  refine ⟨t, rfl, fun hk => ?_⟩
  have hproper := proper_of_scan hended _ (List.mem_map_of_mem ht)
  rw [hk] at hproper
  exact hproper

namespace Parser

namespace Descent

variable {α β : Type} {whole : List (Except LexError Token)} {finish : Except LexError Token}
  {ts : List Token} {s : State}

/-! ## Expressions -/

section

variable {n bound : Nat}

theorem follows_operands {tier : Nat} (ht : tier < 3) {x : Descent Expression}
    (hx : Follows Anything n 1 x (readPhrase tier)) (hbound : n ≤ bound) (left : Expression) :
    Follows Anything n 0 (loop (.operands tier) (operandFrom tier x) bound left)
      (readOperands tier left) := by
  refine .loop (fun kind left => (operator? tier kind).map fun op =>
    Reader.token (.symbol op.sign) >>= fun _ => readPhrase tier >>= fun right =>
      pure (Expression.binary left op right)) (fun left => ?_) (fun kind left => ?_)
    (Nat.le_refl n) hbound left
  · rw [readOperands_eq ht]
    congr 1
    funext kind
    cases operator? tier kind <;>
      simp only [Option.map_none, Option.map_some, pure_bind, bind_assoc]
  · rw [operandFrom]
    cases hop : operator? tier kind with
    | none => exact .none
    | some op =>
      obtain rfl := ((operator?_eq_some ht).1 hop).2
      exact .some (.tokenThen (by simp) (hx.andThen fun right => .pure _) (Nat.le_succ n))

theorem follows_factor (h : ∀ tier ≤ 3, Follows Anything n 1 (phrase bound tier) (readPhrase tier))
    (hbound : n ≤ bound) :
    Follows Anything (n + 1) 1 (phrase (bound + 1) 0) (readPhrase 0) := by
  rw [phrase, readFactor_eq]
  refine .round (.peek fun kind _ => ?_) Nat.one_pos
  unfold factorFrom
  split
  next =>
    exact .tokenThen (by simp) ((h 3 (by omega)).andThen fun e =>
      (Follows.eat (by simp)).andThen fun _ => .pure e) (Nat.le_refl _)
  next =>
    exact .tokenThen (by simp) ((h 0 (by omega)).andThen fun e => .pure e.negate) (Nat.le_refl _)
  next value =>
    exact .takeThen rfl (by simp) (.pure _) (Nat.le_refl _)
  next name =>
    refine Follows.name.bind (j := 0) (fun name => .peek fun kind _ => ?_) (Nat.le_refl _)
    unfold callFrom
    split
    next hk =>
      subst hk
      have harguments : Follows Anything n 0 (commaList .arguments (phrase bound 2) bound)
          readArguments :=
        .commaList readMoreArguments_eq readArguments_eq (h 2 (by omega)) hbound
      refine Follows.atLeast ?_ (Nat.zero_le 1)
      exact .tokenThen (by simp) (harguments.andThen fun values =>
        (Follows.eat (by simp)).andThen fun _ => .pure _) (Nat.le_succ n)
    next => exact .pure _
  next h₁ h₂ h₃ h₄ =>
    rw [factorFrom_other h₁ h₂ h₃ h₄]
    exact .fail _

theorem follows_phrase {tier : Nat} (ht : tier ≤ 3) (hbound : 4 * n + tier ≤ bound) :
    Follows Anything n 1 (phrase bound tier) (readPhrase tier) := by
  induction bound generalizing n tier with
  | zero =>
    obtain rfl : n = 0 := by omega
    exact .zero
  | succ bound ih =>
    cases tier with
    | zero =>
      cases n with
      | zero => exact .zero
      | succ n => exact follows_factor (fun tier ht => ih ht (by omega)) (by omega)
    | succ tier =>
      have hfirst : Follows Anything n 1 (phrase bound tier) (readPhrase tier) :=
        ih (by omega) (by omega)
      rw [phrase, readPhrase_succ (by omega)]
      exact hfirst.andThen fun first => follows_operands (by omega) hfirst (by omega) first

/-! ## Statements -/

theorem follows_block {x : Descent Statement} (hx : Follows Anything n 1 x readSentence)
    (hbound : n ≤ bound) (stops : List Keyword) :
    Follows Anything n 0 (block x bound stops) (readUntil stops) := by
  rw [← bind_pure (readUntil stops)]
  refine .collect (fun kind =>
    if stops.any fun word => kind = .keyword word then none else some readSentence)
    ?_ (fun kind => ?_) hbound []
  · conv => lhs; rw [readUntil_eq]
    congr 1
    funext kind
    unfold untilFrom
    split <;> rfl
  · split
    · exact .none
    · exact .some (hx.when fun _ _ => trivial)

theorem follows_alternative {x : Descent Statement} (hx : Follows Anything n 1 x readSentence)
    (hbound : n ≤ bound) : Follows Anything n 0 (alternative x bound) readAlternative := by
  rw [readAlternative_eq]
  refine .peek fun kind _ => ?_
  unfold alternativeFrom
  split
  next hk =>
    subst hk
    refine Follows.atLeast ?_ (Nat.zero_le 1)
    exact .tokenThen (by simp) (follows_block hx hbound [.end]) (Nat.le_succ n)
  next => exact .pure []

theorem follows_semicolon : Follows Anything n 0
    (peek fun kind => if kind = .symbol .semicolon then advance else pure ()) readSemicolon := by
  refine .peek fun kind _ => ?_
  split
  next hk =>
    subst hk
    exact (Follows.token (by simp)).atLeast (Nat.zero_le 1)
  next => exact .pure ()

theorem follows_then : Follows Anything n 1
    (peek fun kind => if kind = .keyword .then then advance else eat (.keyword .do)) readThen := by
  refine .peek fun kind _ => ?_
  split
  next hk =>
    subst hk
    exact .token (by simp)
  next => exact .eat (by simp)

theorem follows_statement (hbound : 4 * n ≤ bound) :
    Follows Anything n 1 (statement bound) readSentence := by
  induction bound generalizing n with
  | zero =>
    obtain rfl : n = 0 := by omega
    exact .zero
  | succ bound ih =>
    cases n with
    | zero => exact .zero
    | succ n =>
      have hsub : Follows Anything n 1 (statement bound) readSentence := ih (by omega)
      have hphrase {tier} (ht : tier ≤ 3) : Follows Anything n 1 (phrase bound tier) _ :=
        follows_phrase ht (by omega)
      have hblock stops : Follows Anything n 0 (block (statement bound) bound stops) _ :=
        follows_block hsub (by omega) stops
      rw [statement, readSentence_eq]
      refine .round (.peek fun kind _ => ?_) Nat.one_pos
      unfold statementFrom
      split
      next =>
        exact .tokenThen (by simp) ((hphrase (by omega)).andThen fun e => .pure _) (Nat.le_refl _)
      next =>
        exact .tokenThen (by simp) ((hblock [.end]).andThen fun body =>
          (Follows.eat (by simp)).andThen fun _ => follows_semicolon.andThen fun _ => .pure _)
          (Nat.le_refl _)
      next =>
        exact .tokenThen (by simp) ((hphrase (by omega)).andThen fun condition =>
          follows_then.andThen fun _ => (hblock [.else, .end]).andThen fun onTrue =>
          (follows_alternative hsub (by omega)).andThen fun onFalse =>
          (Follows.eat (by simp)).andThen fun _ => .pure _) (Nat.le_refl _)
      next =>
        exact .tokenThen (by simp) ((hphrase (by omega)).andThen fun condition =>
          (Follows.eat (by simp)).andThen fun _ => (hblock [.end]).andThen fun body =>
          (Follows.eat (by simp)).andThen fun _ => .pure _) (Nat.le_refl _)
      next => exact .tokenThen (by simp) (Follows.name.andThen fun name => .pure _) (Nat.le_refl _)
      next =>
        exact .tokenThen (by simp) ((hphrase (by omega)).andThen fun e => .pure _) (Nat.le_refl _)
      next h₁ h₂ h₃ h₄ h₅ h₆ =>
        rw [sentenceFrom_other h₁ h₂ h₃ h₄ h₅ h₆]
        exact (Follows.eat (by simp)).bind (fun _ => Follows.name.andThen fun name =>
          (Follows.eat (by simp)).andThen fun _ => (hphrase (by omega)).andThen fun e => .pure _)
          (Nat.le_refl _)

/-! ## Declarations -/

theorem follows_declaration (hbound : 4 * n ≤ bound) :
    Follows Anything n 1 (declaration bound) readDeclaration := by
  rw [readDeclaration_eq]
  have hnames : Follows Anything n 0 (commaList .names Descent.name bound) readNames :=
    .commaList readMoreNames_eq readNames_eq .name (by omega)
  have hbody : Follows Anything n 0 (block (statement bound) bound [.end]) _ :=
    follows_block (follows_statement hbound) (by omega) [.end]
  exact (Follows.eat (by simp)).andThen fun _ => Follows.name.andThen fun name =>
    (Follows.eat (by simp)).andThen fun _ => hnames.andThen fun names =>
    (Follows.eat (by simp)).andThen fun _ => hbody.andThen fun body =>
    (Follows.eat (by simp)).andThen fun _ => .pure _

/-! ## Programs -/

/-- What comes next at the outermost level, read by a reader. -/
def readItem (kind : Token.Kind) (read : List String × List Statement) :
    Option (Reader (List String × List Statement)) :=
  match kind with
  | .keyword .end | .keyword .endfile | .endOfInput => none
  | .keyword .procedure => some do
    let p ← readDeclaration
    if read.1.contains p.name then Reader.reject (.duplicateProcedure p.name)
    else pure (read.1 ++ [p.name], read.2 ++ [p.marker])
  | _ => some do
    let s ← readSentence
    pure (read.1, read.2 ++ [s])

theorem follows_item (hbound : 4 * n ≤ bound) (kind : Token.Kind)
    (read : List String × List Statement) :
    Option.Rel (Follows (· = kind) n 1) (itemFrom bound kind read) (readItem kind read) := by
  unfold itemFrom
  split
  next => exact .none
  next => exact .none
  next => exact .none
  next =>
    refine .some
      (((follows_declaration hbound).when fun _ _ => trivial).andThen (j := 0) fun p => ?_)
    split
    · exact .reject _
    · exact .pure _
  next =>
    have hread : readItem kind read = some (readSentence >>= fun s =>
        pure (read.1, read.2 ++ [s])) := by
      unfold readItem
      split <;> first | rfl | simp_all
    rw [hread]
    exact .some (((follows_statement hbound).when fun _ _ => trivial).andThen fun s => .pure _)

end

/-- The tree of the items that are still to be read, behind those that have been. -/
def treeBehind (finish : Except LexError Token) (read : List String × List Statement)
    (ts : List Token) : Except ParseError (List Statement) :=
  (topLevel finish read.1 ts).map (read.2 ++ ·)

private theorem map_cons_append (x : Except ParseError (List Statement)) (ss : List Statement)
    (s : Statement) : ((s :: ·) <$> x).map (ss ++ ·) = x.map (ss ++ [s] ++ ·) := by
  rcases x with e | ss' <;> simp [Functor.map, Except.map]

theorem treeBehind_of_some {read : List String × List Statement}
    {y : Reader (List String × List Statement)} (h : readItem (front ts) read = some y) :
    treeBehind finish read ts = y finish ts >>= fun p => treeBehind finish p.1 p.2 := by
  unfold readItem at h
  split at h
  next => cases h
  next => cases h
  next => cases h
  next hk =>
    cases h
    rw [treeBehind, topLevel_of_procedure hk, Reader.bind_apply]
    rcases readDeclaration finish ts with e | ⟨p, r⟩
    · rfl
    · by_cases hdouble : read.1.contains p.name = true
      · simp only [hdouble, if_true]
        rfl
      · simp only [hdouble]
        exact map_cons_append _ _ _
  next h₁ h₂ h₃ h₄ =>
    cases h
    have hsentence : ¬ NoSentence (front ts) := by
      rintro ((hk | hk | hk) | hk)
      exacts [h₁ hk, h₂ hk, h₃ hk, h₄ hk]
    rw [treeBehind, topLevel_of_sentence hsentence, Reader.bind_apply]
    rcases readSentence finish ts with e | ⟨s, r⟩
    · rfl
    · exact map_cons_append _ _ _

theorem closing_of_none {kind : Token.Kind} {read : List String × List Statement}
    (h : readItem kind read = none) : Grammar.Closing kind := by
  unfold readItem at h
  split at h
  next => exact .inl rfl
  next => exact .inr (.inl rfl)
  next => exact .inr (.inr rfl)
  next => cases h
  next => cases h

/-! ## Whole texts -/

/-- The outcome for a result of the parser. -/
def Outcome.ofExcept : Except ParseError α → Outcome α
  | .ok a => .done a
  | .error e => .failed e

/-- The descent of a text ends with a result, and it has made progress up to there. -/
structure Ends (whole : List (Except LexError Token)) (result : Except ParseError α)
    (p : Outcome α × State) : Prop where
  outcome : p.1 = .ofExcept result
  scanned : p.2.scanned <+: whole
  rounds : ∀ r ∈ p.2.rounds, 0 < r.asked ∨ r.finished = false ∧ ∃ e, result = .error e

theorem At.ends (h : At whole finish ts s) (a : α) : Ends whole (.ok a) (.done a, s) :=
  ⟨rfl, h.left.scanned, fun r hr => .inl (h.rounds r hr)⟩

theorem Left.ends (h : Left whole s) (e : ParseError) :
    Ends whole (.error e : Except ParseError α) (.failed e, s) :=
  ⟨rfl, h.scanned, fun r hr => (h.rounds r hr).imp_right fun hf => ⟨hf, e, rfl⟩⟩

/-- A part that follows a reader, in front of one that ends the descent. -/
theorem Follows.ends {K : Token.Kind → Prop} {n k : Nat} {x : Descent α} {y : Reader α}
    {f : α → Descent β} {g : α → List Token → Except ParseError β} (hx : Follows K n k x y)
    (hl : ts.length < n) (hK : K (front ts)) (hs : At whole finish ts s)
    (hf : ∀ a r s', r.length + k ≤ ts.length → At whole finish r s' →
      Ends whole (g a r) (f a s')) :
    Ends whole (y finish ts >>= fun p => g p.1 p.2) ((x >>= f) s) := by
  cases hy : y finish ts with
  | ok p =>
    obtain ⟨s', hx', hs', hr⟩ := hx.done hl hK hs hy
    rw [bind_of_done hx']
    exact hf p.1 p.2 s' hr hs'
  | error e =>
    obtain ⟨s', hx', hs'⟩ := hx.failed hl hK hs hy
    rw [bind_of_failed hx']
    exact hs'.ends e

theorem closing_ends {read : List String × List Statement} (hs : At whole finish ts s)
    (hread : readItem (front ts) read = none) :
    Ends whole (treeBehind finish read ts) (closing read s) := by
  rw [closing, peek_bind, peek, hs.kind, treeBehind]
  have hnothing : .ok read.2 = (.ok [] : Except ParseError (List Statement)).map (read.2 ++ ·) := by
    simp [Except.map]
  have hword {word : Keyword} (hclosing : Grammar.Closing (.keyword word))
      (hk : front ts = .keyword word) :
      Ends whole ((topLevel finish read.1 ts).map (read.2 ++ ·))
        ((advance >>= fun _ => pure read.2) s) := by
    cases ts with
    | nil => cases hk
    | cons t rest =>
      rw [topLevel_of_closing hclosing hk, List.tail_cons]
      cases hr : ready finish rest with
      | ok =>
        obtain ⟨s', hadvance, hs'⟩ := hs.advance hr
        rw [bind_of_done hadvance]
        exact hnothing ▸ hs'.ends read.2
      | error e =>
        obtain ⟨s', hadvance, hs'⟩ := hs.advance_error hr
        rw [bind_of_failed hadvance]
        exact hs'.ends e
  obtain hk | hk | hk := closing_of_none hread
  · rw [hk, if_neg (by simp)]
    exact hword (.inl rfl) hk
  · rw [hk, if_neg (by simp)]
    exact hword (.inr (.inl rfl)) hk
  · have htree : topLevel finish read.1 ts = .ok [] := by
      rw [topLevel.eq_def]
      simp only [hk]
      rfl
    rw [hk, if_pos rfl, htree]
    exact hnothing ▸ hs.ends read.2

/-- The loop of the outermost level, by induction on the number of tokens: each item takes one of
them at least. -/
theorem items_end {n bound : Nat} (hbound : 4 * n ≤ bound) {m : Nat} (hm : m ≤ n) {turns : Nat}
    (hturns : m ≤ turns) (read : List String × List Statement) (hl : ts.length < m)
    (hs : At whole finish ts s) : Ends whole (treeBehind finish read ts)
      ((loop .program (itemFrom bound) turns read >>= closing) s) := by
  induction m generalizing turns read ts s with
  | zero => exact absurd hl (by omega)
  | succ m ih =>
    obtain ⟨turns, rfl⟩ : ∃ turns', turns = turns' + 1 := ⟨turns - 1, by omega⟩
    rw [loop, peek_bind, peek, hs.kind]
    have hrel := follows_item hbound (front ts) read
    generalize itemFrom bound (front ts) read = t at hrel ⊢
    cases hread : readItem (front ts) read with
    | none =>
      rw [hread] at hrel
      cases hrel
      exact closing_ends hs hread
    | some y =>
      rw [hread] at hrel
      cases hrel with
      | some hxy =>
        rw [treeBehind_of_some hread, bind_assoc]
        refine (hxy.round Nat.one_pos).ends (by omega) rfl hs fun read' r s' hr hs' => ?_
        exact ih (by omega) (by omega) read' (by omega) hs'

/-- Four levels for each token, and one token more, are enough. -/
theorem program_ends {bound : Nat} (hbound : 4 * (ts.length + 1) ≤ bound)
    (hs : At whole finish ts s) :
    Ends whole (treeBehind finish ([], []) ts) (program bound s) :=
  items_end hbound (Nat.le_refl _) (by omega) ([], []) (Nat.lt_succ_self _) hs

/-- The state that the descent of a text begins with. -/
theorem at_start {source : String} {first : Token}
    (h : (Lexer.ofString source).next.1 = .ok first) :
    let scan := (Lexer.ofString source).scan
    At scan.outcomes scan.finish scan.tokens
      { lexer := (Lexer.ofString source).next.2, current := first, scanned := [.ok first] } := by
  intro scan
  have hnext := Lexer.next_of_scan (.ofString source)
  have hended : ∀ t, scan.finish = .ok t → t.kind = .endOfInput :=
    fun t ht => Lexer.kind_of_finish rfl ht
  cases htokens : scan.tokens with
  | nil =>
    rw [htokens] at hnext
    have hfinish : scan.finish = .ok first := hnext.symm.trans h
    refine ⟨hfinish, hended, ?_, List.forall_mem_nil _⟩
    simp [pending, Scan.outcomes, htokens, hfinish]
  | cons t rest =>
    obtain ⟨ht, hscan⟩ := Lexer.scan_of_cons htokens
    obtain rfl : t = first := by simpa [h] using ht.symm
    refine ⟨⟨rfl, hscan⟩, hended, ?_, List.forall_mem_nil _⟩
    simp [pending, Scan.outcomes, htokens]

/-- What is true of the descent of a text. -/
structure Progresses (source : String) (run : Run) : Prop where
  /-- It ends, and with the program or the error of the parser. -/
  outcome : run.outcome = .ofExcept (parseTree source)
  /-- The lexer is asked for the tokens one after the other, and for each of them once at most. -/
  scanned : run.scanned <+: (Lexer.ofString source).scan.outcomes
  /-- It is not asked again behind the end of input or behind a fault. -/
  last : ∀ o ∈ run.scanned.dropLast, ∃ t, o = .ok t ∧ t.kind ≠ .endOfInput
  /-- Each turn of a loop and each run of a function passes over a token, but for those that are cut
  off by the error that the descent ends with. -/
  rounds : ∀ r ∈ run.rounds, 0 < r.asked ∨ r.finished = false ∧ ∃ e, run.outcome = .failed e

theorem parseTree_of_error {source : String} {fault : LexError}
    (h : (Lexer.ofString source).next.1 = .error fault) :
    parseTree source = .error (.scan fault) := by
  rw [parseTree_eq, Lexer.scan_error h]
  rfl

theorem parseTree_of_ok {source : String} {first : Token}
    (h : (Lexer.ofString source).next.1 = .ok first) :
    let scan := (Lexer.ofString source).scan
    parseTree source = treeBehind scan.finish ([], []) scan.tokens := by
  intro scan
  have hready : ready scan.finish scan.tokens = .ok () := by
    obtain hr | ⟨fault, hfinish, htokens, -⟩ := ready_cases scan.finish scan.tokens
    · exact hr
    · have hnext := Lexer.next_of_scan (.ofString source)
      rw [htokens, hfinish, h] at hnext
      cases hnext
  have htree : parseTree source = topLevel scan.finish [] scan.tokens := by
    rw [parseTree_eq, hready]
    rfl
  rw [htree, treeBehind]
  cases topLevel scan.finish [] scan.tokens <;> rfl

end Descent

theorem parseStepwise_of_error {source : String} {bound : Nat} {fault : LexError}
    (h : (Lexer.ofString source).next.1 = .error fault) :
    parseStepwise bound source =
      { outcome := .failed (.scan fault), scanned := [.error fault] } := by
  have hnext : (Lexer.ofString source).next = (.error fault, (Lexer.ofString source).next.2) :=
    Prod.ext h rfl
  rw [parseStepwise, hnext]

theorem parseStepwise_of_ok {source : String} {bound : Nat} {current : Token}
    (h : (Lexer.ofString source).next.1 = .ok current) :
    let p := Descent.program bound
      { lexer := (Lexer.ofString source).next.2, current, scanned := [.ok current] }
    parseStepwise bound source =
      { outcome := p.1, scanned := p.2.scanned, rounds := p.2.rounds } := by
  have hnext : (Lexer.ofString source).next = (.ok current, (Lexer.ofString source).next.2) :=
    Prod.ext h rfl
  rw [parseStepwise, hnext]

/-- The descent of a text makes progress wherever it goes round, so it ends. -/
theorem descent_progresses (source : String) {bound : Nat} (h : 4 * (source.length + 1) ≤ bound) :
    Descent.Progresses source (parseStepwise bound source) := by
  cases hfirst : (Lexer.ofString source).next.1 with
  | error fault =>
    have hscan : [.error fault] <+: (Lexer.ofString source).scan.outcomes := by
      rw [Lexer.scan_error hfirst]
      exact List.prefix_rfl
    rw [parseStepwise_of_error hfirst]
    refine ⟨?_, hscan, fun o => Lexer.ok_of_mem_dropLast rfl hscan, List.forall_mem_nil _⟩
    rw [Descent.parseTree_of_error hfirst]
    rfl
  | ok first =>
    have hlength : (Lexer.ofString source).scan.tokens.length ≤ source.length :=
      Lexer.length_tokens_le (.ofString source)
    have hbound : 4 * ((Lexer.ofString source).scan.tokens.length + 1) ≤ bound := by omega
    have hends := Descent.program_ends hbound (Descent.at_start hfirst)
    rw [← Descent.parseTree_of_ok hfirst] at hends
    rw [parseStepwise_of_ok hfirst]
    refine ⟨hends.outcome, hends.scanned, fun o => Lexer.ok_of_mem_dropLast rfl hends.scanned,
      fun r hr => (hends.rounds r hr).imp_right fun ⟨hf, e, he⟩ => ⟨hf, e, ?_⟩⟩
    exact hends.outcome.trans (congrArg Descent.Outcome.ofExcept he)

/-- A text that breaks off inside the arguments of a call. -/
theorem descent_of_broken_call :
    4 * ("display f(1,".length + 1) ≤ 52 ∧
      Descent.Progresses "display f(1," (parseStepwise 52 "display f(1,") :=
  ⟨by decide, descent_progresses _ (by decide)⟩

end Parser

end Blockwork
