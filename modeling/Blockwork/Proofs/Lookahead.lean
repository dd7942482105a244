import Blockwork.Proofs.ParserSound
import Blockwork.Proofs.Reader

/-!
# The parser looks one token ahead

Each function of the parser, without the proofs about its rest, is put together from the readers of
`Blockwork.Proofs.Reader`: an equation for each of them. From the equations follows that they are
predictive for the words of the grammar. The proof goes by the number of tokens.

* `readPhrase`, `readSentence`, `readDeclaration` and the readers of their parts, with an equation
  for each. Where the next token decides, what it decides is in a function of its kind
  (`factorFrom`, `sentenceFrom`).
* `PhraseWord`, `SentenceWord` and the like: the words of a sort of derivations.
* `predictive_phrase`, `predictive_sentence`, `predictive_declaration`.
-/

namespace Blockwork

namespace Parser

open Grammar Reader

/-! ## Expressions -/

/-- Phrases of a tier. -/
def readPhrase (tier : Nat) : Reader Expression := fun finish ts => erase (phrase finish tier ts)

/-- The rest of a chain. -/
def readOperands (tier : Nat) (left : Expression) : Reader Expression := fun finish ts =>
  erase (operands finish tier left ts)

def readArguments : Reader (List Expression) := fun finish ts => erase (arguments finish ts)

def readMoreArguments : Reader (List Expression) := fun finish ts => erase (moreArguments finish ts)

/-- A factor that begins with a name, where a token of the given kind stands behind the name. -/
def callFrom (name : String) (kind : Token.Kind) : Reader Expression :=
  if kind = .symbol .leftParen then do
    token (.symbol .leftParen)
    let values ← readArguments
    token (.symbol .rightParen)
    pure (.call name values)
  else pure (.variable name)

/-- A factor that begins with a token of the given kind. -/
def factorFrom : Token.Kind → Reader Expression
  | .symbol .leftParen => do
    token (.symbol .leftParen)
    let e ← readPhrase 3
    token (.symbol .rightParen)
    pure e
  | .symbol .minus => do
    token (.symbol .minus)
    let e ← readPhrase 0
    pure e.negate
  | .integer _ => do
    let value ← Reader.number
    pure (.number value)
  | .identifier _ => do
    let name ← Reader.name
    Reader.peek (callFrom name)
  | _ => Reader.fail .expression

theorem factorFrom_other {kind : Token.Kind} (hopen : kind ≠ .symbol .leftParen)
    (hminus : kind ≠ .symbol .minus) (hinteger : ∀ value, kind ≠ .integer value)
    (hname : ∀ name, kind ≠ .identifier name) : factorFrom kind = Reader.fail .expression := by
  unfold factorFrom
  split <;> first | rfl | simp_all

theorem readFactor_eq : readPhrase 0 = Reader.peek factorFrom := by
  funext finish ts
  rw [readPhrase, phrase, factor.eq_def, Reader.peek]
  cases ts with
  | nil => rfl
  | cons t rest =>
    simp only [front_cons]
    split
    next hk =>
      rw [hk]
      refine erase_ready_bind hk (erase_bind rfl fun e r h => ?_)
      exact erase_eat_bind (by decide) fun r h => erase_pure _
    next hk =>
      rw [hk]
      exact erase_ready_bind hk (erase_bind rfl fun e r h => erase_pure _)
    next value hk =>
      rw [hk]
      exact erase_take_bind (b := value) (by rw [hk]) (erase_pure _)
    next name hk =>
      rw [hk]
      refine erase_take_bind (b := name) (by rw [hk]) ?_
      rw [Reader.peek, callFrom]
      by_cases hopen : front rest = .symbol .leftParen
      · rw [if_pos hopen, if_pos hopen]
        refine erase_eat_bind (by decide) fun r h => erase_bind rfl fun es r h => ?_
        exact erase_eat_bind (by decide) fun r h => erase_pure _
      · rw [if_neg hopen, if_neg hopen]
        exact erase_pure _
    next h₁ h₂ h₃ h₄ =>
      rw [factorFrom_other h₁ h₂ h₃ h₄]
      rfl

theorem readPhrase_succ {tier : Nat} (ht : tier < 3) :
    readPhrase (tier + 1) = readPhrase tier >>= readOperands tier := by
  funext finish ts
  rw [readPhrase, phrase_succ ht]
  exact erase_bind rfl fun e r h => erase_bind_pure

theorem readOperands_eq {tier : Nat} (ht : tier < 3) (left : Expression) :
    readOperands tier left = Reader.peek fun kind =>
      match operator? tier kind with
      | none => pure left
      | some op =>
        token (.symbol op.sign) >>= fun _ => readPhrase tier >>= fun right =>
          readOperands tier (.binary left op right) := by
  funext finish ts
  rw [readOperands, Reader.peek]
  cases ts with
  | nil =>
    have hnone : operator? tier (front []) = none := by
      obtain _ | _ | tier := tier <;> rfl
    rw [operands_nil ht, hnone]
    rfl
  | cons t rest =>
    rw [operands_cons ht]
    simp only [front_cons]
    cases hop : operator? tier t.kind with
    | none => rfl
    | some op =>
      refine erase_ready_bind ((operator?_eq_some ht).1 hop).2 ?_
      exact erase_bind rfl fun e r h => erase_bind_pure

/-- Arguments, the first of which would begin with a token of the given kind. -/
def argumentsFrom (kind : Token.Kind) : Reader (List Expression) :=
  if kind = .symbol .rightParen then pure []
  else do
    let e ← readPhrase 2
    let es ← readMoreArguments
    pure (e :: es)

theorem readArguments_eq : readArguments = Reader.peek argumentsFrom := by
  funext finish ts
  rw [readArguments, arguments, Reader.peek, argumentsFrom]
  split
  next => rfl
  next => exact erase_bind rfl fun e r h => erase_bind rfl fun es r h => erase_pure _

def moreArgumentsFrom (kind : Token.Kind) : Reader (List Expression) :=
  if kind = .symbol .comma then do
    token (.symbol .comma)
    let e ← readPhrase 2
    let es ← readMoreArguments
    pure (e :: es)
  else pure []

theorem readMoreArguments_eq : readMoreArguments = Reader.peek moreArgumentsFrom := by
  funext finish ts
  rw [readMoreArguments, moreArguments.eq_def, Reader.peek]
  cases ts with
  | nil => rfl
  | cons t rest =>
    simp only [front_cons]
    by_cases hk : t.kind = .symbol .comma
    · rw [if_pos hk, moreArgumentsFrom, if_pos hk]
      refine erase_ready_bind hk ?_
      exact erase_bind rfl fun e r h => erase_bind rfl fun es r h => erase_pure _
    · rw [if_neg hk, moreArgumentsFrom, if_neg hk]
      exact erase_pure _

/-! ## Statements -/

def readSemicolon : Reader Unit := Reader.peek fun kind =>
  if kind = .symbol .semicolon then token (.symbol .semicolon) else pure ()

def readThen : Reader Unit := Reader.peek fun kind =>
  if kind = .keyword .then then token (.keyword .then) else token (.keyword .do)

def readSentence : Reader Statement := fun finish ts => erase (statement finish ts)

def readUntil (stops : List Keyword) : Reader (List Statement) := fun finish ts =>
  erase (statementsUntil finish stops ts)

def readAlternative : Reader (List Statement) := fun finish ts => erase (alternative finish ts)

section

variable {α : Type} {P : List Token → Prop} {finish : Except LexError Token} {ts : List Token}

theorem erase_skipSemicolon_bind {f : NoLonger ts → Except ParseError (α × { r // P r })}
    {g : Unit → Reader α} (hf : ∀ r h, erase (f ⟨r, h⟩) = g () finish r) :
    erase (skipSemicolon finish ts >>= f) = (readSemicolon >>= g) finish ts := by
  show _ = Reader.bind readSemicolon g finish ts
  rw [skipSemicolon, Reader.bind, readSemicolon, Reader.peek]
  split
  next hk =>
    cases ts with
    | nil => cases hk
    | cons t rest =>
      rw [Reader.token_of_eq hk, eat, if_pos (by exact hk), List.tail_cons]
      rcases ready finish rest with e | ⟨⟩
      · rfl
      · exact hf rest _
  next => exact hf ts _

theorem erase_eatThen_bind {f : Shorter ts → Except ParseError (α × { r // P r })}
    {g : Unit → Reader α} (hf : ∀ r h, erase (f ⟨r, h⟩) = g () finish r) :
    erase (eatThen finish ts >>= f) = (readThen >>= g) finish ts := by
  show _ = Reader.bind readThen g finish ts
  rw [eatThen, Reader.bind, readThen, Reader.peek]
  split
  next => exact erase_eat_bind (by decide) hf
  next => exact erase_eat_bind (by decide) hf

end

/-- A sentence that begins with a token of the given kind. -/
def sentenceFrom : Token.Kind → Reader Statement
  | .keyword .display => do
    token (.keyword .display)
    let e ← readPhrase 3
    pure (.display e)
  | .keyword .begin => do
    token (.keyword .begin)
    let body ← readUntil [.end]
    token (.keyword .end)
    readSemicolon
    pure (.block body)
  | .keyword .if => do
    token (.keyword .if)
    let condition ← readPhrase 3
    readThen
    let onTrue ← readUntil [.else, .end]
    let onFalse ← readAlternative
    token (.keyword .end)
    pure (.branch condition onTrue onFalse)
  | .keyword .while => do
    token (.keyword .while)
    let condition ← readPhrase 3
    token (.keyword .do)
    let body ← readUntil [.end]
    token (.keyword .end)
    pure (.loop condition body)
  | .keyword .read => do
    token (.keyword .read)
    let name ← Reader.name
    pure (.read name)
  | .keyword .return => do
    token (.keyword .return)
    let e ← readPhrase 2
    pure (.return e)
  | _ => do
    token (.keyword .assign)
    let name ← Reader.name
    token (.symbol .equal)
    let e ← readPhrase 2
    pure (.assign name e)

/-- What begins no sentence is taken for an assignment. -/
theorem sentenceFrom_other {kind : Token.Kind} (hdisplay : kind ≠ .keyword .display)
    (hbegin : kind ≠ .keyword .begin) (hif : kind ≠ .keyword .if) (hwhile : kind ≠ .keyword .while)
    (hread : kind ≠ .keyword .read) (hreturn : kind ≠ .keyword .return) :
    sentenceFrom kind = sentenceFrom (.keyword .assign) := by
  unfold sentenceFrom
  split <;> first | rfl | simp_all

theorem readSentence_eq : readSentence = Reader.peek sentenceFrom := by
  funext finish ts
  rw [readSentence, statement.eq_def, Reader.peek]
  cases ts with
  | nil => rfl
  | cons t rest =>
    simp only [front_cons]
    split
    next hk =>
      rw [hk]
      exact erase_ready_bind hk (erase_bind rfl fun e r h => erase_pure _)
    next hk =>
      rw [hk]
      refine erase_ready_bind hk (erase_bind rfl fun body r h => ?_)
      refine erase_eat_bind (by decide) fun r h => ?_
      exact erase_skipSemicolon_bind fun r h => erase_pure _
    next hk =>
      rw [hk]
      refine erase_ready_bind hk (erase_bind rfl fun condition r h => ?_)
      refine erase_eatThen_bind fun r h => ?_
      refine erase_bind rfl fun onTrue r h => erase_bind rfl fun onFalse r h => ?_
      exact erase_eat_bind (by decide) fun r h => erase_pure _
    next hk =>
      rw [hk]
      refine erase_ready_bind hk (erase_bind rfl fun condition r h => ?_)
      refine erase_eat_bind (by decide) fun r h => erase_bind rfl fun body r h => ?_
      exact erase_eat_bind (by decide) fun r h => erase_pure _
    next hk =>
      rw [hk]
      exact erase_ready_bind hk (erase_bind erase_identifier fun name r h => erase_pure _)
    next hk =>
      rw [hk]
      exact erase_ready_bind hk (erase_bind rfl fun e r h => erase_pure _)
    next h₁ h₂ h₃ h₄ h₅ h₆ =>
      rw [sentenceFrom_other h₁ h₂ h₃ h₄ h₅ h₆]
      refine erase_eat_bind (by decide) fun r h => erase_bind erase_identifier fun name r h => ?_
      refine erase_eat_bind (by decide) fun r h => ?_
      exact erase_bind rfl fun e r h => erase_pure _

/-- What stands behind the first branch, where the next token is of the given kind. -/
def alternativeFrom (kind : Token.Kind) : Reader (List Statement) :=
  if kind = .keyword .else then do
    token (.keyword .else)
    readUntil [.end]
  else pure []

theorem readAlternative_eq : readAlternative = Reader.peek alternativeFrom := by
  funext finish ts
  rw [readAlternative, alternative, Reader.peek, alternativeFrom]
  split
  next => exact erase_eat_bind (by decide) fun r h => erase_bind_pure
  next => rfl

def untilFrom (stops : List Keyword) (kind : Token.Kind) : Reader (List Statement) :=
  if stops.any fun word => kind = .keyword word then pure []
  else do
    let s ← readSentence
    let ss ← readUntil stops
    pure (s :: ss)

theorem readUntil_eq (stops : List Keyword) :
    readUntil stops = Reader.peek (untilFrom stops) := by
  funext finish ts
  rw [readUntil, statementsUntil, Reader.peek, untilFrom]
  split
  next => rfl
  next => exact erase_bind rfl fun s r h => erase_bind rfl fun ss r h => erase_pure _

/-! ## Declarations -/

def readMoreNames : Reader (List String) := fun finish ts => erase (moreIdentifiers finish ts)

def readNames : Reader (List String) := fun finish ts => erase (parameters finish ts)

def readDeclaration : Reader Procedure := fun finish ts => erase (declaration finish ts)

def moreNamesFrom (kind : Token.Kind) : Reader (List String) :=
  if kind = .symbol .comma then do
    token (.symbol .comma)
    let name ← Reader.name
    let names ← readMoreNames
    pure (name :: names)
  else pure []

theorem readMoreNames_eq : readMoreNames = Reader.peek moreNamesFrom := by
  funext finish ts
  rw [readMoreNames, moreIdentifiers.eq_def, Reader.peek]
  cases ts with
  | nil => rfl
  | cons t rest =>
    simp only [front_cons]
    by_cases hk : t.kind = .symbol .comma
    · rw [if_pos hk, moreNamesFrom, if_pos hk]
      refine erase_ready_bind hk (erase_bind erase_identifier fun name r h => ?_)
      exact erase_bind rfl fun names r h => erase_pure _
    · rw [if_neg hk, moreNamesFrom, if_neg hk]
      exact erase_pure _

def namesFrom (kind : Token.Kind) : Reader (List String) :=
  if kind = .symbol .rightParen then pure []
  else do
    let name ← Reader.name
    let names ← readMoreNames
    pure (name :: names)

theorem readNames_eq : readNames = Reader.peek namesFrom := by
  funext finish ts
  rw [readNames, parameters, Reader.peek, namesFrom]
  split
  next => rfl
  next => exact erase_bind erase_identifier fun name r h => erase_bind rfl fun _ r h => erase_pure _

theorem readDeclaration_eq : readDeclaration = (do
    token (.keyword .procedure)
    let name ← Reader.name
    token (.symbol .leftParen)
    let names ← readNames
    token (.symbol .rightParen)
    let body ← readUntil [.end]
    token (.keyword .end)
    pure ⟨name, names, body⟩) := by
  funext finish ts
  rw [readDeclaration, declaration]
  refine erase_eat_bind (by decide) fun r h => erase_bind erase_identifier fun name r h => ?_
  refine erase_eat_bind (by decide) fun r h => erase_bind rfl fun names r h => ?_
  refine erase_eat_bind (by decide) fun r h => erase_bind rfl fun body r h => ?_
  exact erase_eat_bind (by decide) fun r h => erase_pure _

/-! ## The words that the readers pass over -/

/-- The words of the phrases of a tier. -/
def PhraseWord (tier : Nat) (w : List Token.Kind) : Prop := ∃ d : Phrase tier, d.word = w

def OperandsWord (tier : Nat) (w : List Token.Kind) : Prop := ∃ d : Operands tier, d.word = w

def SentenceWord (w : List Token.Kind) : Prop := ∃ d : Sentence, d.word = w

def SentencesWord (w : List Token.Kind) : Prop := ∃ d : Sentences, d.word = w

/-- There are phrases of all tiers. -/
theorem inhabited_phrase (tier : Nat) : ∃ w, AllProper w ∧ PhraseWord tier w := by
  induction tier with
  | zero => exact ⟨[.integer 0], by decide, .number 0, rfl⟩
  | succ tier ih =>
    obtain ⟨_, hp, d, rfl⟩ := ih
    exact ⟨_, hp, .chain d .done, by simp [Phrase.word, Operands.word]⟩

theorem predictive_operands {n tier : Nat} (ht : tier < 3)
    (hp : Predictive n (PhraseWord tier) (readPhrase tier)) :
    ∀ m ≤ n + 1, ∀ left, Predictive m (OperandsWord tier) (readOperands tier left) := by
  have hany : ∃ w, AllProper w ∧ OperandsWord tier w := ⟨[], allProper_nil, .done, rfl⟩
  intro m hm
  induction m with
  | zero => exact fun left => .zero hany
  | succ m ih =>
    intro left
    rw [readOperands_eq ht]
    refine .peek hany fun kind => ?_
    split
    next => exact (Predictive.pure _).mono fun w hw => ⟨.done, hw.symm⟩
    next op hop =>
      have hmore := (hp.antitone (by omega)).andThen fun right =>
        ih (by omega) (.binary left op right)
      refine (Predictive.tokenThen (Token.Kind.proper_symbol op.sign) hmore).mono ?_
      rintro _ ⟨_, _, rfl, ⟨_, _, ⟨right, rfl⟩, ⟨rest, rfl⟩, rfl⟩, rfl⟩
      exact ⟨.more op ((operator?_eq_some ht).1 hop).1 right rest, rfl⟩

theorem predictive_moreArguments {n : Nat} (hp : Predictive n (PhraseWord 2) (readPhrase 2)) :
    ∀ m ≤ n + 1, Predictive m (fun w => ∃ d : MoreArguments, d.word = w) readMoreArguments := by
  have hany : ∃ w, AllProper w ∧ ∃ d : MoreArguments, d.word = w := ⟨[], allProper_nil, .done, rfl⟩
  intro m hm
  induction m with
  | zero => exact .zero hany
  | succ m ih =>
    rw [readMoreArguments_eq]
    refine .peek hany fun kind => ?_
    unfold moreArgumentsFrom
    split
    next =>
      have hmore := (hp.antitone (by omega)).andThen fun e =>
        (ih (by omega)).andThen fun es => .pure (e :: es)
      refine (Predictive.tokenThen (by decide) hmore).mono ?_
      rintro _ ⟨_, _, rfl, ⟨_, _, ⟨d, rfl⟩, ⟨_, _, ⟨ds, rfl⟩, rfl, rfl⟩, rfl⟩, rfl⟩
      exact ⟨.more d ds, by simp [MoreArguments.word]⟩
    next => exact (Predictive.pure _).mono fun w hw => ⟨.done, hw.symm⟩

theorem predictive_arguments {n : Nat} (hp : Predictive n (PhraseWord 2) (readPhrase 2)) :
    Predictive n (fun w => ∃ d : Arguments, d.word = w) readArguments := by
  rw [readArguments_eq]
  refine .peek ⟨[], allProper_nil, .none, rfl⟩ fun kind => ?_
  unfold argumentsFrom
  split
  next => exact (Predictive.pure _).mono fun w hw => ⟨.none, hw.symm⟩
  next =>
    have hmore := predictive_moreArguments hp n (by omega)
    refine (hp.andThen fun e => hmore.andThen fun es => .pure (e :: es)).mono ?_
    rintro _ ⟨_, _, ⟨d, rfl⟩, ⟨_, _, ⟨ds, rfl⟩, rfl, rfl⟩, rfl⟩
    exact ⟨.some d ds, by simp [Arguments.word]⟩

/-- What follows a name is a list of arguments, or else the name is a variable. -/
theorem predictive_call {n : Nat} (hp : Predictive n (PhraseWord 2) (readPhrase 2))
    (name : String) :
    Predictive n (fun w => ∀ name, PhraseWord 0 (.identifier name :: w))
      (Reader.peek (callFrom name)) := by
  refine .peek ⟨[], allProper_nil, fun name => ⟨.variable name, rfl⟩⟩ fun kind => ?_
  unfold callFrom
  split
  next =>
    refine ((Predictive.token (by decide)).andThen fun _ =>
      (predictive_arguments hp).andThen fun es =>
        (Predictive.token (by decide)).andThen fun _ => .pure _).mono ?_
    rintro _ ⟨_, _, rfl, ⟨_, _, ⟨d, rfl⟩, ⟨_, _, rfl, rfl, rfl⟩, rfl⟩, rfl⟩ name
    exact ⟨.call name d, by simp [Phrase.word]⟩
  next => exact (Predictive.pure _).mono fun w hw name => ⟨.variable name, by rw [hw]; rfl⟩

theorem predictive_factor {n : Nat}
    (hp : ∀ tier ≤ 3, Predictive n (PhraseWord tier) (readPhrase tier)) :
    Predictive (n + 1) (PhraseWord 0) (readPhrase 0) := by
  have hany : ∃ w, AllProper w ∧ PhraseWord 0 w := inhabited_phrase 0
  rw [readFactor_eq]
  refine .peek hany fun kind => ?_
  unfold factorFrom
  split
  next =>
    refine (Predictive.tokenThen (by decide) ((hp 3 (by omega)).andThen fun e =>
      (Predictive.token (by decide)).andThen fun _ => .pure e)).mono ?_
    rintro _ ⟨_, _, rfl, ⟨_, _, ⟨d, rfl⟩, ⟨_, _, rfl, rfl, rfl⟩, rfl⟩, rfl⟩
    exact ⟨.parenthesized d, by simp [Phrase.word]⟩
  next =>
    refine (Predictive.tokenThen (by decide) ((hp 0 (by omega)).andThen fun e =>
      .pure e.negate)).mono ?_
    rintro _ ⟨_, _, rfl, ⟨_, _, ⟨d, rfl⟩, rfl, rfl⟩, rfl⟩
    exact ⟨.negated d, by simp [Phrase.word]⟩
  next =>
    refine (Predictive.number.oneThen (by rintro _ ⟨_, rfl⟩; rfl) fun value =>
      .pure _).mono ?_
    rintro _ ⟨_, _, ⟨value, rfl⟩, rfl, rfl⟩
    exact ⟨.number value, rfl⟩
  next =>
    refine (Predictive.name.oneThen (by rintro _ ⟨_, rfl⟩; rfl)
      (predictive_call (hp 2 (by omega)))).mono ?_
    rintro _ ⟨_, w, ⟨name, rfl⟩, hw, rfl⟩
    exact hw name
  next => exact .fail _ hany

theorem predictive_phrase (n : Nat) :
    ∀ tier ≤ 3, Predictive n (PhraseWord tier) (readPhrase tier) := by
  induction n with
  | zero => exact fun tier _ => .zero (inhabited_phrase tier)
  | succ n ih =>
    intro tier ht
    induction tier with
    | zero => exact predictive_factor ih
    | succ tier iht =>
      have hfirst := iht (by omega)
      rw [readPhrase_succ (by omega)]
      refine (hfirst.andThen fun e => predictive_operands (by omega) hfirst _ (by omega) e).mono ?_
      rintro _ ⟨_, _, ⟨d, rfl⟩, ⟨ds, rfl⟩, rfl⟩
      exact ⟨.chain d ds, rfl⟩

/-! ### Statements -/

theorem predictive_semicolon (n : Nat) :
    Predictive n (fun w => ∃ semicolon : Bool, (if semicolon then [.symbol .semicolon] else []) = w)
      readSemicolon := by
  refine .peek ⟨[], allProper_nil, false, rfl⟩ fun kind => ?_
  split
  next => exact (Predictive.token (by decide)).mono fun w hw => ⟨true, hw.symm⟩
  next => exact (Predictive.pure _).mono fun w hw => ⟨false, hw.symm⟩

theorem predictive_then (n : Nat) :
    Predictive n (fun w => ∃ withThen : Bool, [.keyword (if withThen then .then else .do)] = w)
      readThen := by
  refine .peek ⟨[.keyword .then], by decide, true, rfl⟩ fun kind => ?_
  split
  next => exact (Predictive.token (by decide)).mono fun w hw => ⟨true, hw.symm⟩
  next => exact (Predictive.token (by decide)).mono fun w hw => ⟨false, hw.symm⟩

theorem predictive_until {n : Nat} (hs : Predictive n SentenceWord readSentence)
    (stops : List Keyword) : ∀ m ≤ n, Predictive m SentencesWord (readUntil stops) := by
  have hany : ∃ w, AllProper w ∧ SentencesWord w := ⟨[], allProper_nil, .nil, rfl⟩
  intro m hm
  induction m with
  | zero => exact .zero hany
  | succ m ih =>
    rw [readUntil_eq]
    refine .peek hany fun kind => ?_
    unfold untilFrom
    split
    next => exact (Predictive.pure _).mono fun w hw => ⟨.nil, hw.symm⟩
    next =>
      have hpos : ∀ w, SentenceWord w → m + 1 ≤ m + w.length := by
        rintro _ ⟨d, rfl⟩
        obtain ⟨_, -, _, hd⟩ := d.word_eq_cons
        simp [hd]
      have hrest := ih (by omega)
      refine ((hs.antitone hm).bind (fun s => hrest.andThen fun ss => .pure (s :: ss)) hpos).mono ?_
      rintro _ ⟨_, _, ⟨d, rfl⟩, ⟨_, _, ⟨ds, rfl⟩, rfl, rfl⟩, rfl⟩
      exact ⟨.cons d ds, by simp [Sentences.word]⟩

theorem predictive_alternative {n : Nat} (hs : Predictive n SentenceWord readSentence) :
    Predictive n (fun w => ∃ d : Alternative, d.word = w) readAlternative := by
  rw [readAlternative_eq]
  refine .peek ⟨[], allProper_nil, .absent, rfl⟩ fun kind => ?_
  unfold alternativeFrom
  split
  next =>
    refine ((Predictive.token (by decide)).andThen fun _ =>
      predictive_until hs [.end] n (Nat.le_refl n)).mono ?_
    rintro _ ⟨_, _, rfl, ⟨ds, rfl⟩, rfl⟩
    exact ⟨.present ds, rfl⟩
  next => exact (Predictive.pure _).mono fun w hw => ⟨.absent, hw.symm⟩

theorem predictive_sentence (n : Nat) : Predictive n SentenceWord readSentence := by
  have hany : ∃ w, AllProper w ∧ SentenceWord w :=
    ⟨[.keyword .begin, .keyword .end], by decide, .block .nil false, rfl⟩
  induction n with
  | zero => exact .zero hany
  | succ n ih =>
    have hp := predictive_phrase n
    have hbody := predictive_until ih [.end] n (Nat.le_refl n)
    have hend : Predictive n (· = [.keyword .end]) (token (.keyword .end)) := .token (by decide)
    rw [readSentence_eq]
    refine .peek hany fun kind => ?_
    unfold sentenceFrom
    split
    next =>
      refine (Predictive.tokenThen (by decide) ((hp 3 (by omega)).andThen fun e => .pure _)).mono ?_
      rintro _ ⟨_, _, rfl, ⟨_, _, ⟨d, rfl⟩, rfl, rfl⟩, rfl⟩
      exact ⟨.display d, by simp [Sentence.word]⟩
    next =>
      refine (Predictive.tokenThen (by decide) (hbody.andThen fun body => hend.andThen fun _ =>
        (predictive_semicolon n).andThen fun _ => .pure _)).mono ?_
      rintro _ ⟨_, _, rfl, ⟨_, _, ⟨ds, rfl⟩, ⟨_, _, rfl, ⟨_, _, ⟨semicolon, rfl⟩, rfl, rfl⟩, rfl⟩,
        rfl⟩, rfl⟩
      exact ⟨.block ds semicolon, by simp [Sentence.word]⟩
    next =>
      refine (Predictive.tokenThen (by decide) ((hp 3 (by omega)).andThen fun condition =>
        (predictive_then n).andThen fun _ =>
        (predictive_until ih [.else, .end] n (Nat.le_refl n)).andThen fun onTrue =>
        (predictive_alternative ih).andThen fun onFalse => hend.andThen fun _ => .pure _)).mono ?_
      rintro _ ⟨_, _, rfl, ⟨_, _, ⟨d, rfl⟩, ⟨_, _, ⟨withThen, rfl⟩, ⟨_, _, ⟨ds, rfl⟩,
        ⟨_, _, ⟨ds', rfl⟩, ⟨_, _, rfl, rfl, rfl⟩, rfl⟩, rfl⟩, rfl⟩, rfl⟩, rfl⟩
      exact ⟨.branch d withThen ds ds', by simp [Sentence.word]⟩
    next =>
      refine (Predictive.tokenThen (by decide) ((hp 3 (by omega)).andThen fun condition =>
        (Predictive.token (by decide)).andThen fun _ => hbody.andThen fun body =>
        hend.andThen fun _ => .pure _)).mono ?_
      rintro _ ⟨_, _, rfl, ⟨_, _, ⟨d, rfl⟩, ⟨_, _, rfl, ⟨_, _, ⟨ds, rfl⟩, ⟨_, _, rfl, rfl, rfl⟩,
        rfl⟩, rfl⟩, rfl⟩, rfl⟩
      exact ⟨.loop d ds, by simp [Sentence.word]⟩
    next =>
      refine (Predictive.tokenThen (by decide) (Predictive.name.andThen fun name =>
        .pure _)).mono ?_
      rintro _ ⟨_, _, rfl, ⟨_, _, ⟨name, rfl⟩, rfl, rfl⟩, rfl⟩
      exact ⟨.read name, rfl⟩
    next =>
      refine (Predictive.tokenThen (by decide) ((hp 2 (by omega)).andThen fun e => .pure _)).mono ?_
      rintro _ ⟨_, _, rfl, ⟨_, _, ⟨d, rfl⟩, rfl, rfl⟩, rfl⟩
      exact ⟨.return d, by simp [Sentence.word]⟩
    next =>
      refine (Predictive.tokenThen (by decide) (Predictive.name.andThen fun name =>
        (Predictive.token (by decide)).andThen fun _ => (hp 2 (by omega)).andThen fun e =>
        .pure _)).mono ?_
      rintro _ ⟨_, _, rfl, ⟨_, _, ⟨name, rfl⟩, ⟨_, _, rfl, ⟨_, _, ⟨d, rfl⟩, rfl, rfl⟩, rfl⟩, rfl⟩,
        rfl⟩
      exact ⟨.assign name d, by simp [Sentence.word]⟩

/-! ### Declarations -/

theorem predictive_moreNames (n : Nat) :
    Predictive n (fun w => ∃ ns, moreNames ns = w) readMoreNames := by
  have hany : ∃ w, AllProper w ∧ ∃ ns, moreNames ns = w := ⟨[], allProper_nil, [], rfl⟩
  induction n with
  | zero => exact .zero hany
  | succ n ih =>
    rw [readMoreNames_eq]
    refine .peek hany fun kind => ?_
    unfold moreNamesFrom
    split
    next =>
      refine (Predictive.tokenThen (by decide) (Predictive.name.andThen fun name =>
        ih.andThen fun names => .pure _)).mono ?_
      rintro _ ⟨_, _, rfl, ⟨_, _, ⟨name, rfl⟩, ⟨_, _, ⟨ns, rfl⟩, rfl, rfl⟩, rfl⟩, rfl⟩
      exact ⟨name :: ns, by simp [moreNames]⟩
    next => exact (Predictive.pure _).mono fun w hw => ⟨[], hw.symm⟩

theorem predictive_names (n : Nat) : Predictive n (fun w => ∃ ns, names ns = w) readNames := by
  rw [readNames_eq]
  refine .peek ⟨[], allProper_nil, [], rfl⟩ fun kind => ?_
  unfold namesFrom
  split
  next => exact (Predictive.pure _).mono fun w hw => ⟨[], hw.symm⟩
  next =>
    refine (Predictive.name.andThen fun name => (predictive_moreNames n).andThen fun names =>
      .pure _).mono ?_
    rintro _ ⟨_, _, ⟨name, rfl⟩, ⟨_, _, ⟨ns, rfl⟩, rfl, rfl⟩, rfl⟩
    exact ⟨name :: ns, by simp [names]⟩

theorem predictive_declaration (n : Nat) :
    Predictive n (fun w => ∃ d : Declaration, d.word = w) readDeclaration := by
  rw [readDeclaration_eq]
  refine ((Predictive.token (by decide)).andThen fun _ => Predictive.name.andThen fun name =>
    (Predictive.token (by decide)).andThen fun _ => (predictive_names n).andThen fun ns =>
    (Predictive.token (by decide)).andThen fun _ =>
    (predictive_until (predictive_sentence n) [.end] n (Nat.le_refl n)).andThen fun body =>
    (Predictive.token (by decide)).andThen fun _ => .pure _).mono ?_
  rintro _ ⟨_, _, rfl, ⟨_, _, ⟨name, rfl⟩, ⟨_, _, rfl, ⟨_, _, ⟨ns, rfl⟩, ⟨_, _, rfl,
    ⟨_, _, ⟨ds, rfl⟩, ⟨_, _, rfl, rfl, rfl⟩, rfl⟩, rfl⟩, rfl⟩, rfl⟩, rfl⟩, rfl⟩
  exact ⟨⟨name, ns, ds⟩, by simp [Declaration.word]⟩

end Parser

end Blockwork
