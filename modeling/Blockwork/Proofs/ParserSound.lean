import Blockwork.Program
import Blockwork.Proofs.Grammar
import Blockwork.Tree.Names

/-!
# What the parser accepts has a derivation

If the parser reads a part of the tree, then the tokens that it passes over are the word of a
derivation of that part. The proof goes by the number of tokens, from the factors up through the
tiers. It is about the parser with nothing recorded on the way; `Blockwork.Proofs.Recording` says
what a recording adds to that.

* `Reads`: tokens with a word in front.
* `Recorder (Except ParseError)`, `topLevel`: the parser without a recording.
* `phrase`: the functions of all tiers as one.
* `phrase_sound`, `sentence_sound`, `topLevel_sound`: the parser's functions, sort by sort.
-/

namespace Blockwork

open Grammar

namespace Parser

/-! ## Words in front of tokens -/

/-- The kinds of the tokens up to a rest of them. -/
def Reads (ts : List Token) (word : List Token.Kind) (rest : List Token) : Prop :=
  ∃ first, ts = first ++ rest ∧ first.map Token.kind = word

namespace Reads

variable {ts mid rest : List Token} {a b : List Token.Kind}

theorem nil (ts : List Token) : Reads ts [] ts := ⟨[], rfl, rfl⟩

theorem cons {t : Token} (h : Reads ts a rest) : Reads (t :: ts) (t.kind :: a) rest := by
  obtain ⟨first, rfl, rfl⟩ := h
  exact ⟨t :: first, rfl, rfl⟩

theorem append (h : Reads ts a mid) (h' : Reads mid b rest) : Reads ts (a ++ b) rest := by
  obtain ⟨first, rfl, rfl⟩ := h
  obtain ⟨second, rfl, rfl⟩ := h'
  exact ⟨first ++ second, by simp, by simp⟩

theorem of_nil (h : Reads ts [] rest) : ts = rest := by
  obtain ⟨first, rfl, h⟩ := h
  simp [List.map_eq_nil_iff.1 h]

theorem of_cons {kind : Token.Kind} (h : Reads ts (kind :: a) rest) :
    ∃ t mid, ts = t :: mid ∧ t.kind = kind ∧ Reads mid a rest := by
  obtain ⟨first, rfl, h⟩ := h
  obtain ⟨t, first, rfl, ht, hfirst⟩ := List.map_eq_cons_iff.1 h
  exact ⟨t, first ++ rest, rfl, ht, first, rfl, hfirst⟩

theorem of_append (h : Reads ts (a ++ b) rest) : ∃ mid, Reads ts a mid ∧ Reads mid b rest := by
  obtain ⟨first, rfl, h⟩ := h
  obtain ⟨left, right, rfl, hl, hr⟩ := List.map_eq_append_iff.1 h
  exact ⟨right ++ rest, ⟨left, by simp, hl⟩, right, rfl, hr⟩

end Reads

/-! ## The parser without a recording -/

/-- Nothing is recorded. The parser's functions are read so where no other way to read is given. -/
@[default_instance]
instance : Recorder (Except ParseError) where
  mention _ := .ok ()
  within _ body := body
  declare _ := .ok ()

section

variable {α : Type}

theorem lift_plain (x : Except ParseError α) : (liftM x : Except ParseError α) = x := rfl

theorem within_plain (own : List String) (body : Except ParseError α) :
    within own body = body := rfl

end

variable (finish : Except LexError Token)

/-- The outermost statements and declarations. The names of the procedures declared so far are at
hand: a second declaration of one of them is an error as soon as it is complete. -/
def topLevel (declared : List String) (ts : List Token) : Except ParseError (List Statement) :=
  match front ts with
  | .keyword .end | .keyword .endfile => do
    ready finish ts.tail
    return []
  | .endOfInput => return []
  | .keyword .procedure => do
    let (p, ⟨rest, _⟩) ← declaration finish ts
    if declared.contains p.name then throw (.duplicateProcedure p.name)
    let ss ← topLevel (declared ++ [p.name]) rest
    return p.marker :: ss
  | _ => do
    let (s, ⟨rest, _⟩) ← statement finish ts
    let ss ← topLevel declared rest
    return s :: ss
termination_by ts.length

/-! ## Single tokens -/

theorem eq_ok_of_bind {ε α β : Type} {x : Except ε α} {f : α → Except ε β} {b : β}
    (h : x >>= f = .ok b) : ∃ a, x = .ok a ∧ f a = .ok b := by
  cases x with
  | error e => cases h
  | ok a => exact ⟨a, rfl, h⟩

variable {finish}

theorem eat_sound {kind : Token.Kind} {ts : List Token} {r : Shorter ts}
    (h : eat finish kind ts = .ok r) : Reads ts [kind] r := by
  unfold eat at h
  split at h
  · cases h
  next t rest =>
    split at h
    next hk =>
      obtain ⟨_, -, h⟩ := eq_ok_of_bind h
      cases h
      rw [← hk]
      exact (Reads.nil rest).cons
    next => cases h

theorem identifier_sound {ts : List Token} {name : String} {r : Shorter ts}
    (h : identifier finish ts = .ok (name, r)) : Reads ts [.identifier name] r := by
  unfold identifier at h
  split at h
  · cases h
  next t rest =>
    split at h
    next x hk =>
      obtain ⟨_, -, h⟩ := eq_ok_of_bind h
      cases h
      rw [← hk]
      exact (Reads.nil rest).cons
    next => cases h

/-! ## Expressions -/

/-- The operators between the operands of a chain. -/
def operator? : Nat → Token.Kind → Option Operator
  | 0 => multiplicative?
  | 1 => additive?
  | _ => relation?

section

variable {m : Type → Type} [Monad m] [MonadLiftT (Except ParseError) m] [Recorder m]

/-- The reader for phrases of a tier. -/
def phrase (finish : Except LexError Token) : Nat → (ts : List Token) → m (Expression × Shorter ts)
  | 0 => factor finish
  | 1 => product finish
  | 2 => sum finish
  | _ => conditional finish

/-- The reader for the rest of a chain with operands of a tier. -/
def operands (finish : Except LexError Token) : Nat → Expression → (ts : List Token) →
    m (Expression × NoLonger ts)
  | 0 => moreFactors finish
  | 1 => moreProducts finish
  | _ => moreSums finish

theorem operator?_eq_some {tier : Nat} (ht : tier < 3) {kind : Token.Kind} {op : Operator} :
    operator? tier kind = some op ↔ op.tier = tier ∧ kind = .symbol op.sign := by
  have h : tier = 0 ∨ tier = 1 ∨ tier = 2 := by omega
  rcases h with rfl | rfl | rfl <;> cases kind <;>
    simp only [operator?, multiplicative?, additive?, relation?, reduceCtorEq, and_false]
  all_goals
    rename_i sign
    cases sign <;> cases op <;> simp [Operator.tier, Operator.sign]

theorem phrase_succ {tier : Nat} (ht : tier < 3) (ts : List Token) :
    (phrase finish (tier + 1) ts : m _) = do
      let (e, ⟨r₁, h₁⟩) ← phrase finish tier ts
      let (e, ⟨r₂, h₂⟩) ← operands finish tier e r₁
      return (e, ⟨r₂, Nat.lt_of_le_of_lt h₂ h₁⟩) := by
  have h : tier = 0 ∨ tier = 1 ∨ tier = 2 := by omega
  rcases h with rfl | rfl | rfl
  · exact product.eq_def finish ts
  · exact sum.eq_def finish ts
  · exact conditional.eq_def finish ts

theorem operands_nil {tier : Nat} (ht : tier < 3) (left : Expression) :
    (operands finish tier left [] : m _) = pure (left, ⟨[], Nat.le_refl _⟩) := by
  have h : tier = 0 ∨ tier = 1 ∨ tier = 2 := by omega
  rcases h with rfl | rfl | rfl
  · exact moreFactors.eq_def finish left []
  · exact moreProducts.eq_def finish left []
  · exact moreSums.eq_def finish left []

theorem operands_cons {tier : Nat} (ht : tier < 3) (left : Expression) (t : Token)
    (rest : List Token) :
    (operands finish tier left (t :: rest) : m _) =
      match operator? tier t.kind with
      | none => pure (left, ⟨t :: rest, Nat.le_refl _⟩)
      | some op => do
        ready finish rest
        let (right, ⟨r₁, h₁⟩) ← phrase finish tier rest
        let (e, ⟨r₂, h₂⟩) ← operands finish tier (.binary left op right) r₁
        return (e, ⟨r₂, Nat.le_succ_of_le (Nat.le_of_lt (Nat.lt_of_le_of_lt h₂ h₁))⟩) := by
  have h : tier = 0 ∨ tier = 1 ∨ tier = 2 := by omega
  rcases h with rfl | rfl | rfl
  · exact moreFactors.eq_def finish left (t :: rest)
  · exact moreProducts.eq_def finish left (t :: rest)
  · exact moreSums.eq_def finish left (t :: rest)

end

/-- The phrases of a tier that are read from fewer than `n` tokens have derivations. -/
def PhraseSound (finish : Except LexError Token) (n tier : Nat) : Prop :=
  ∀ (ts : List Token) (e : Expression) (r : Shorter ts), ts.length < n →
    (phrase finish tier ts : Except ParseError _) = .ok (e, r) →
      ∃ d : Phrase tier, Reads ts d.word r ∧ d.tree = e

theorem operands_sound {n tier : Nat} (ht : tier < 3) (hp : PhraseSound finish n tier)
    (left e : Expression) (ts : List Token) (r : NoLonger ts) (hn : ts.length ≤ n)
    (h : (operands finish tier left ts : Except ParseError _) = .ok (e, r)) :
    ∃ d : Operands tier, Reads ts d.word r ∧ d.tree left = e := by
  obtain ⟨l, hl⟩ : ∃ l, ts.length = l := ⟨_, rfl⟩
  induction l using Nat.strongRecOn generalizing left ts r with
  | ind l ih =>
    cases ts with
    | nil =>
      rw [operands_nil ht] at h
      cases h
      exact ⟨.done, .nil _, rfl⟩
    | cons t rest =>
      rw [operands_cons ht] at h
      split at h
      next =>
        cases h
        exact ⟨.done, .nil _, rfl⟩
      next op hop =>
        obtain ⟨hop, hk⟩ := (operator?_eq_some ht).1 hop
        obtain ⟨_, -, h⟩ := eq_ok_of_bind h
        obtain ⟨⟨right, r₁, h₁⟩, hright, h⟩ := eq_ok_of_bind h
        obtain ⟨⟨e', r₂, h₂⟩, hrest, h⟩ := eq_ok_of_bind h
        cases h
        rw [List.length_cons] at hn hl
        obtain ⟨d, hd, rfl⟩ := hp rest right ⟨r₁, h₁⟩ (by omega) hright
        obtain ⟨ds, hds, rfl⟩ := ih r₁.length (by omega) _ r₁ ⟨r₂, h₂⟩ (by omega) hrest rfl
        refine ⟨.more op hop d ds, ?_, rfl⟩
        rw [Operands.word, ← hk]
        exact (hd.append hds).cons

/-- From the phrases of one tier to the next. -/
theorem PhraseSound.succ {n tier : Nat} (ht : tier < 3) (hp : PhraseSound finish (n + 1) tier) :
    PhraseSound finish (n + 1) (tier + 1) := by
  intro ts e r hn h
  rw [phrase_succ ht] at h
  obtain ⟨⟨e₁, r₁, h₁⟩, hfirst, h⟩ := eq_ok_of_bind h
  obtain ⟨⟨e₂, r₂, h₂⟩, hmore, h⟩ := eq_ok_of_bind h
  cases h
  obtain ⟨d, hd, rfl⟩ := hp ts e₁ ⟨r₁, h₁⟩ hn hfirst
  obtain ⟨ds, hds, rfl⟩ := operands_sound ht hp d.tree e r₁ ⟨r₂, h₂⟩ (by omega) hmore
  exact ⟨.chain d ds, hd.append hds, rfl⟩

theorem moreArguments_sound {n : Nat} (hp : PhraseSound finish n 2) (es : List Expression)
    (ts : List Token) (r : NoLonger ts) (hn : ts.length ≤ n)
    (h : (moreArguments finish ts : Except ParseError _) = .ok (es, r)) :
    ∃ d : MoreArguments, Reads ts d.word r ∧ d.trees = es := by
  obtain ⟨l, hl⟩ : ∃ l, ts.length = l := ⟨_, rfl⟩
  induction l using Nat.strongRecOn generalizing es ts r with
  | ind l ih =>
    rw [moreArguments.eq_def] at h
    split at h
    next =>
      cases h
      exact ⟨.done, .nil _, rfl⟩
    next t rest =>
      split at h
      next hk =>
        obtain ⟨_, -, h⟩ := eq_ok_of_bind h
        obtain ⟨⟨e, r₁, h₁⟩, hfirst, h⟩ := eq_ok_of_bind h
        obtain ⟨⟨es', r₂, h₂⟩, hmore, h⟩ := eq_ok_of_bind h
        cases h
        rw [List.length_cons] at hn hl
        obtain ⟨d, hd, rfl⟩ := hp rest e ⟨r₁, h₁⟩ (by omega) hfirst
        obtain ⟨ds, hds, rfl⟩ := ih r₁.length (by omega) es' r₁ ⟨r₂, h₂⟩ (by omega) hmore rfl
        refine ⟨.more d ds, ?_, rfl⟩
        rw [MoreArguments.word, ← hk]
        exact (hd.append hds).cons
      next =>
        cases h
        exact ⟨.done, .nil _, rfl⟩

theorem arguments_sound {n : Nat} (hp : PhraseSound finish n 2) (es : List Expression)
    (ts : List Token) (r : NoLonger ts) (hn : ts.length < n)
    (h : (arguments finish ts : Except ParseError _) = .ok (es, r)) :
    ∃ d : Arguments, Reads ts d.word r ∧ d.trees = es := by
  rw [arguments] at h
  split at h
  next =>
    cases h
    exact ⟨.none, .nil _, rfl⟩
  next =>
    obtain ⟨⟨e, r₁, h₁⟩, hfirst, h⟩ := eq_ok_of_bind h
    obtain ⟨⟨es', r₂, h₂⟩, hmore, h⟩ := eq_ok_of_bind h
    cases h
    obtain ⟨d, hd, rfl⟩ := hp ts e ⟨r₁, h₁⟩ hn hfirst
    obtain ⟨ds, hds, rfl⟩ := moreArguments_sound hp es' r₁ ⟨r₂, h₂⟩ (by omega) hmore
    exact ⟨.some d ds, hd.append hds, rfl⟩

theorem factor_sound {n : Nat} (hp : ∀ tier ≤ 3, PhraseSound finish n tier) :
    PhraseSound finish (n + 1) 0 := by
  intro ts e r hn h
  simp only [phrase, factor.eq_def finish ts] at h
  split at h
  · cases h
  next t rest =>
    simp only [List.length_cons] at hn
    split at h
    next hk =>
      obtain ⟨_, -, h⟩ := eq_ok_of_bind h
      obtain ⟨⟨e', r₁, h₁⟩, hinner, h⟩ := eq_ok_of_bind h
      obtain ⟨⟨r₂, h₂⟩, hclose, h⟩ := eq_ok_of_bind h
      cases h
      obtain ⟨d, hd, rfl⟩ := hp 3 (by omega) rest e' ⟨r₁, h₁⟩ (by omega) hinner
      refine ⟨.parenthesized d, ?_, rfl⟩
      rw [Phrase.word, ← hk]
      exact (hd.append (eat_sound hclose)).cons
    next hk =>
      obtain ⟨_, -, h⟩ := eq_ok_of_bind h
      obtain ⟨⟨e', r₁, h₁⟩, hinner, h⟩ := eq_ok_of_bind h
      cases h
      obtain ⟨d, hd, rfl⟩ := hp 0 (by omega) rest e' ⟨r₁, h₁⟩ (by omega) hinner
      refine ⟨.negated d, ?_, rfl⟩
      rw [Phrase.word, ← hk]
      exact hd.cons
    next value hk =>
      obtain ⟨_, -, h⟩ := eq_ok_of_bind h
      cases h
      refine ⟨.number value, ?_, rfl⟩
      rw [Phrase.word, ← hk]
      exact (Reads.nil rest).cons
    next name hk =>
      obtain ⟨_, -, h⟩ := eq_ok_of_bind h
      split at h
      next =>
        obtain ⟨⟨r₁, h₁⟩, hopen, h⟩ := eq_ok_of_bind h
        obtain ⟨⟨values, r₂, h₂⟩, hvalues, h⟩ := eq_ok_of_bind h
        obtain ⟨⟨r₃, h₃⟩, hclose, h⟩ := eq_ok_of_bind h
        cases h
        obtain ⟨d, hd, rfl⟩ :=
          arguments_sound (hp 2 (by omega)) values r₁ ⟨r₂, h₂⟩ (by omega) hvalues
        refine ⟨.call name d, ?_, rfl⟩
        rw [Phrase.word, ← hk]
        exact ((eat_sound hopen).append (hd.append (eat_sound hclose))).cons
      next =>
        cases h
        refine ⟨.variable name, ?_, rfl⟩
        rw [Phrase.word, ← hk]
        exact (Reads.nil rest).cons
    next => cases h

theorem phrases_sound (finish : Except LexError Token) (n : Nat) :
    ∀ tier ≤ 3, PhraseSound finish n tier := by
  induction n with
  | zero => exact fun tier _ ts e r hl => absurd hl (by omega)
  | succ n ih =>
    intro tier ht
    induction tier with
    | zero => exact factor_sound ih
    | succ tier iht => exact (iht (by omega)).succ (by omega)

theorem phrase_sound (tier : Nat) (ht : tier ≤ 3) {ts : List Token} {e : Expression}
    {r : Shorter ts} (h : (phrase finish tier ts : Except ParseError _) = .ok (e, r)) :
    ∃ d : Phrase tier, Reads ts d.word r ∧ d.tree = e :=
  phrases_sound finish (ts.length + 1) tier ht ts e r (by omega) h

/-! ## Statements -/

theorem skipSemicolon_sound {ts : List Token} {r : NoLonger ts}
    (h : skipSemicolon finish ts = .ok r) :
    ∃ semicolon : Bool, Reads ts (if semicolon then [.symbol .semicolon] else []) r := by
  unfold skipSemicolon at h
  split at h
  next =>
    obtain ⟨⟨r₁, h₁⟩, hsemicolon, h⟩ := eq_ok_of_bind h
    cases h
    exact ⟨true, eat_sound hsemicolon⟩
  next =>
    cases h
    exact ⟨false, .nil ts⟩

theorem eatThen_sound {ts : List Token} {r : Shorter ts} (h : eatThen finish ts = .ok r) :
    ∃ withThen : Bool, Reads ts [.keyword (if withThen then .then else .do)] r := by
  unfold eatThen at h
  split at h
  · exact ⟨true, eat_sound h⟩
  · exact ⟨false, eat_sound h⟩

/-- The statements that are read from fewer than `n` tokens have derivations. -/
def SentenceSound (finish : Except LexError Token) (n : Nat) : Prop :=
  ∀ (ts : List Token) (s : Statement) (r : Shorter ts), ts.length < n →
    (statement finish ts : Except ParseError _) = .ok (s, r) →
      ∃ d : Sentence, Reads ts d.word r ∧ d.tree = s

theorem statementsUntil_sound {n : Nat} (hs : SentenceSound finish n) (stops : List Keyword)
    (ts : List Token) (ss : List Statement) (r : NoLonger ts) (hn : ts.length < n)
    (h : (statementsUntil finish stops ts : Except ParseError _) = .ok (ss, r)) :
    ∃ d : Sentences, Reads ts d.word r ∧ d.trees = ss := by
  obtain ⟨l, hl⟩ : ∃ l, ts.length = l := ⟨_, rfl⟩
  induction l using Nat.strongRecOn generalizing ss ts r with
  | ind l ih =>
    rw [statementsUntil] at h
    split at h
    next =>
      cases h
      exact ⟨.nil, .nil _, rfl⟩
    next =>
      obtain ⟨⟨s, r₁, h₁⟩, hfirst, h⟩ := eq_ok_of_bind h
      obtain ⟨⟨ss', r₂, h₂⟩, hrest, h⟩ := eq_ok_of_bind h
      cases h
      obtain ⟨d, hd, rfl⟩ := hs ts s ⟨r₁, h₁⟩ hn hfirst
      obtain ⟨ds, hds, rfl⟩ := ih r₁.length (by omega) r₁ ss' ⟨r₂, h₂⟩ (by omega) hrest rfl
      exact ⟨.cons d ds, hd.append hds, rfl⟩

theorem alternative_sound {n : Nat} (hs : SentenceSound finish n) {ts : List Token}
    {ss : List Statement} {r : NoLonger ts} (hn : ts.length < n)
    (h : (alternative finish ts : Except ParseError _) = .ok (ss, r)) :
    ∃ d : Alternative, Reads ts d.word r ∧ d.trees = ss := by
  rw [alternative] at h
  split at h
  next =>
    obtain ⟨⟨r₁, h₁⟩, helse, h⟩ := eq_ok_of_bind h
    obtain ⟨⟨body, r₂, h₂⟩, hbody, h⟩ := eq_ok_of_bind h
    cases h
    obtain ⟨d, hd, rfl⟩ :=
      statementsUntil_sound hs _ r₁ ss ⟨r₂, h₂⟩ (by omega) hbody
    exact ⟨.present d, (eat_sound helse).append hd, rfl⟩
  next =>
    cases h
    exact ⟨.absent, .nil _, rfl⟩

theorem sentence_sound (finish : Except LexError Token) (n : Nat) : SentenceSound finish n := by
  induction n with
  | zero => exact fun ts s r hl => absurd hl (by omega)
  | succ n ih =>
    intro ts s r hn h
    rw [statement.eq_def] at h
    split at h
    · cases h
    next t rest =>
      rw [List.length_cons] at hn
      split at h
      next hk =>
        obtain ⟨_, -, h⟩ := eq_ok_of_bind h
        obtain ⟨⟨e, r₁, h₁⟩, hvalue, h⟩ := eq_ok_of_bind h
        cases h
        obtain ⟨d, hd, rfl⟩ := phrase_sound 3 (by omega) hvalue
        refine ⟨.display d, ?_, rfl⟩
        rw [Sentence.word, ← hk]
        exact hd.cons
      next hk =>
        obtain ⟨_, -, h⟩ := eq_ok_of_bind h
        obtain ⟨⟨body, r₁, h₁⟩, hbody, h⟩ := eq_ok_of_bind h
        obtain ⟨⟨r₂, h₂⟩, hend, h⟩ := eq_ok_of_bind h
        obtain ⟨⟨r₃, h₃⟩, hsemicolon, h⟩ := eq_ok_of_bind h
        cases h
        obtain ⟨d, hd, rfl⟩ := statementsUntil_sound ih _ rest body ⟨r₁, h₁⟩ (by omega) hbody
        obtain ⟨semicolon, hs⟩ := skipSemicolon_sound hsemicolon
        refine ⟨.block d semicolon, ?_, rfl⟩
        rw [Sentence.word, ← hk]
        exact (hd.append ((eat_sound hend).append hs)).cons
      next hk =>
        obtain ⟨_, -, h⟩ := eq_ok_of_bind h
        obtain ⟨⟨e, r₁, h₁⟩, hcondition, h⟩ := eq_ok_of_bind h
        obtain ⟨⟨r₂, h₂⟩, hthen, h⟩ := eq_ok_of_bind h
        obtain ⟨⟨onTrue, r₃, h₃⟩, htrue, h⟩ := eq_ok_of_bind h
        obtain ⟨⟨onFalse, r₄, h₄⟩, hfalse, h⟩ := eq_ok_of_bind h
        obtain ⟨⟨r₅, h₅⟩, hend, h⟩ := eq_ok_of_bind h
        cases h
        obtain ⟨d, hd, rfl⟩ := phrase_sound 3 (by omega) hcondition
        obtain ⟨withThen, hw⟩ := eatThen_sound hthen
        obtain ⟨d₁, hd₁, rfl⟩ := statementsUntil_sound ih _ r₂ onTrue ⟨r₃, h₃⟩ (by omega) htrue
        obtain ⟨d₂, hd₂, rfl⟩ := alternative_sound ih (by omega) hfalse
        refine ⟨.branch d withThen d₁ d₂, ?_, rfl⟩
        rw [Sentence.word, ← hk]
        exact (hd.append (hw.append (hd₁.append (hd₂.append (eat_sound hend))))).cons
      next hk =>
        obtain ⟨_, -, h⟩ := eq_ok_of_bind h
        obtain ⟨⟨e, r₁, h₁⟩, hcondition, h⟩ := eq_ok_of_bind h
        obtain ⟨⟨r₂, h₂⟩, hdo, h⟩ := eq_ok_of_bind h
        obtain ⟨⟨body, r₃, h₃⟩, hbody, h⟩ := eq_ok_of_bind h
        obtain ⟨⟨r₄, h₄⟩, hend, h⟩ := eq_ok_of_bind h
        cases h
        obtain ⟨d, hd, rfl⟩ := phrase_sound 3 (by omega) hcondition
        obtain ⟨ds, hds, rfl⟩ := statementsUntil_sound ih _ r₂ body ⟨r₃, h₃⟩ (by omega) hbody
        refine ⟨.loop d ds, ?_, rfl⟩
        rw [Sentence.word, ← hk]
        exact (hd.append ((eat_sound hdo).append (hds.append (eat_sound hend)))).cons
      next hk =>
        obtain ⟨_, -, h⟩ := eq_ok_of_bind h
        obtain ⟨⟨name, r₁, h₁⟩, hname, h⟩ := eq_ok_of_bind h
        obtain ⟨_, -, h⟩ := eq_ok_of_bind h
        cases h
        refine ⟨.read name, ?_, rfl⟩
        rw [Sentence.word, ← hk]
        exact (identifier_sound hname).cons
      next hk =>
        obtain ⟨_, -, h⟩ := eq_ok_of_bind h
        obtain ⟨⟨e, r₁, h₁⟩, hvalue, h⟩ := eq_ok_of_bind h
        cases h
        obtain ⟨d, hd, rfl⟩ := phrase_sound 2 (by omega) hvalue
        refine ⟨.return d, ?_, rfl⟩
        rw [Sentence.word, ← hk]
        exact hd.cons
      next =>
        obtain ⟨⟨r₀, h₀⟩, hassign, h⟩ := eq_ok_of_bind h
        obtain ⟨⟨name, r₁, h₁⟩, hname, h⟩ := eq_ok_of_bind h
        obtain ⟨_, -, h⟩ := eq_ok_of_bind h
        obtain ⟨⟨r₂, h₂⟩, hequal, h⟩ := eq_ok_of_bind h
        obtain ⟨⟨e, r₃, h₃⟩, hvalue, h⟩ := eq_ok_of_bind h
        cases h
        obtain ⟨d, hd, rfl⟩ := phrase_sound 2 (by omega) hvalue
        exact ⟨.assign name d, (eat_sound hassign).append
          ((identifier_sound hname).append ((eat_sound hequal).append hd)), rfl⟩

/-! ## Texts -/

theorem moreIdentifiers_sound {ts : List Token} {ns : List String} {r : NoLonger ts}
    (h : moreIdentifiers finish ts = .ok (ns, r)) : Reads ts (moreNames ns) r := by
  obtain ⟨l, hl⟩ : ∃ l, ts.length = l := ⟨_, rfl⟩
  induction l using Nat.strongRecOn generalizing ns ts r with
  | ind l ih =>
    rw [moreIdentifiers.eq_def] at h
    split at h
    next =>
      cases h
      exact .nil _
    next t rest =>
      split at h
      next hk =>
        obtain ⟨_, -, h⟩ := eq_ok_of_bind h
        obtain ⟨⟨name, r₁, h₁⟩, hname, h⟩ := eq_ok_of_bind h
        obtain ⟨⟨ns', r₂, h₂⟩, hmore, h⟩ := eq_ok_of_bind h
        cases h
        rw [List.length_cons] at hl
        have hns := ih r₁.length (by omega) hmore rfl
        show Reads (t :: rest) (.symbol .comma :: .identifier name :: moreNames ns') r₂
        rw [← hk]
        exact ((identifier_sound hname).append hns).cons
      next =>
        cases h
        exact .nil _

theorem parameters_sound {ts : List Token} {ns : List String} {r : NoLonger ts}
    (h : parameters finish ts = .ok (ns, r)) : Reads ts (names ns) r := by
  unfold parameters at h
  split at h
  next =>
    cases h
    exact .nil _
  next =>
    obtain ⟨⟨name, r₁, h₁⟩, hname, h⟩ := eq_ok_of_bind h
    obtain ⟨⟨ns', r₂, h₂⟩, hmore, h⟩ := eq_ok_of_bind h
    cases h
    exact (identifier_sound hname).append (moreIdentifiers_sound hmore)

theorem declaration_sound {ts : List Token} {p : Procedure} {r : Shorter ts}
    (h : (declaration finish ts : Except ParseError _) = .ok (p, r)) :
    ∃ d : Declaration, Reads ts d.word r ∧ d.tree = p := by
  unfold declaration at h
  obtain ⟨⟨r₁, h₁⟩, hprocedure, h⟩ := eq_ok_of_bind h
  obtain ⟨⟨name, r₂, h₂⟩, hname, h⟩ := eq_ok_of_bind h
  obtain ⟨⟨r₃, h₃⟩, hopen, h⟩ := eq_ok_of_bind h
  obtain ⟨⟨ns, r₄, h₄⟩, hparameters, h⟩ := eq_ok_of_bind h
  obtain ⟨⟨r₅, h₅⟩, hclose, h⟩ := eq_ok_of_bind h
  obtain ⟨⟨body, r₆, h₆⟩, hbody, h⟩ := eq_ok_of_bind h
  obtain ⟨⟨r₇, h₇⟩, hend, h⟩ := eq_ok_of_bind h
  obtain ⟨_, -, h⟩ := eq_ok_of_bind h
  cases h
  obtain ⟨d, hd, rfl⟩ := statementsUntil_sound (sentence_sound finish (r₅.length + 1)) _ r₅ body
    ⟨r₆, h₆⟩ (by omega) hbody
  refine ⟨⟨name, ns, d⟩, ?_, rfl⟩
  exact (eat_sound hprocedure).append ((identifier_sound hname).append ((eat_sound hopen).append
    ((parameters_sound hparameters).append ((eat_sound hclose).append
      (hd.append (eat_sound hend))))))

/-- One name more, which is new. -/
theorem nodup_append_name {names : List String} {name : String} (h : names.Nodup)
    (hnew : name ∉ names) : (names ++ [name]).Nodup := by
  refine List.nodup_append.2 ⟨h, by simp, fun a ha b hb hab => hnew ?_⟩
  rwa [← List.mem_singleton.1 hb, ← hab]

/-- What the parser accepts is a derived text in front of a closing word. Its procedures have
different names, none of which was declared before. -/
theorem topLevel_sound {seen : List String} {ts : List Token} {ss : List Statement}
    (h : topLevel finish seen ts = .ok ss) (hseen : seen.Nodup) :
    ∃ items rest, Reads ts (word items) rest ∧ Closing (front rest) ∧ tree items = ss ∧
      (seen ++ declared items).Nodup := by
  obtain ⟨l, hl⟩ : ∃ l, ts.length = l := ⟨_, rfl⟩
  induction l using Nat.strongRecOn generalizing seen ts ss with
  | ind l ih =>
    rw [topLevel.eq_def] at h
    split at h
    next hk =>
      obtain ⟨_, -, h⟩ := eq_ok_of_bind h
      cases h
      exact ⟨[], ts, .nil ts, .inl hk, rfl, by simpa [declared] using hseen⟩
    next hk =>
      obtain ⟨_, -, h⟩ := eq_ok_of_bind h
      cases h
      exact ⟨[], ts, .nil ts, .inr (.inl hk), rfl, by simpa [declared] using hseen⟩
    next hk =>
      cases h
      exact ⟨[], ts, .nil ts, .inr (.inr hk), rfl, by simpa [declared] using hseen⟩
    next =>
      obtain ⟨⟨p, r, hr⟩, hp, h⟩ := eq_ok_of_bind h
      obtain ⟨d, hd, rfl⟩ := declaration_sound hp
      simp only at h
      split at h
      · cases h
      next hnew =>
        obtain ⟨ss', hss, h⟩ := eq_ok_of_bind h
        cases h
        rw [List.contains_eq_mem, decide_eq_true_eq] at hnew
        have hnodup : (seen ++ [d.tree.name]).Nodup := nodup_append_name hseen hnew
        obtain ⟨items, rest, hi, hc, rfl, hn⟩ := ih r.length (by omega) hss hnodup rfl
        refine ⟨.declaration d :: items, rest, hd.append hi, hc, rfl, ?_⟩
        rwa [List.append_assoc] at hn
    next =>
      obtain ⟨⟨s, r, hr⟩, hs, h⟩ := eq_ok_of_bind h
      obtain ⟨ss', hss, h⟩ := eq_ok_of_bind h
      cases h
      obtain ⟨d, hd, rfl⟩ := sentence_sound finish (ts.length + 1) ts s ⟨r, hr⟩ (by omega) hs
      obtain ⟨items, rest, hi, hc, rfl, hn⟩ := ih r.length (by omega) hss hseen rfl
      exact ⟨.statement d :: items, rest, hd.append hi, hc, rfl, hn⟩

end Parser

namespace Grammar

theorem declared_cons (item : Item) (items : List Item) :
    declared (item :: items) = item.declared?.toList ++ declared items := by
  cases item <;> rfl

theorem procedures_tree (items : List Item) :
    ((tree items).filterMap Statement.procedure?).map Procedure.name = declared items := by
  induction items with
  | nil => rfl
  | cons item items ih =>
    cases item with
    | declaration d => exact congrArg (d.name :: ·) ih
    | statement s => cases s <;> exact ih

end Grammar

end Blockwork
