import Blockwork.Proofs.ParserSound

/-!
# What is recorded while a text is read

The environment of a program grows while its text is read, before there is a tree. It comes to what
a walk through the tree finds: the recording has no influence on what is read, and what it holds
behind a part of the tree is what it held in front of it, with the names that the part mentions.

* `Statement.variables`, `Environment.extend`, `Environment.ofTree`: the walk, and what it finds.
* `Recording.Records`: reading with a recording comes to the same as reading without one, and what
  it has recorded then; one law for each way to put readers together.
* `recorded_phrase`, `recorded_statements`, `recorded_declaration`: the parser's functions.
* `recorded_program`, `Program.parse_eq`: whole texts.
-/

namespace Blockwork

open Grammar Blockwork.Parser

/-! ## The walk through a tree -/

mutual

/-- The variables of a statement and of the procedures declared in it. A procedure's own name and
its parameters do not count in its body. -/
def Statement.variables : Statement → List String
  | .assign name value => name :: value.variables
  | .read name => [name]
  | .block body => Statement.listVariables body
  | .branch condition onTrue onFalse =>
    condition.variables ++ Statement.listVariables onTrue ++ Statement.listVariables onFalse
  | .loop condition body => condition.variables ++ Statement.listVariables body
  | .display value | .return value => value.variables
  | .procedure name parameters body =>
    (Statement.listVariables body).filter fun x => !(name :: parameters).contains x

/-- The variables of a list of statements. -/
def Statement.listVariables : List Statement → List String
  | [] => []
  | s :: ss => s.variables ++ Statement.listVariables ss

end

namespace Environment

/-- What a program starts with: its procedures and the names of its variables, and no values. -/
def ofTree (statements : List Statement) : Environment :=
  (Statement.listVariables statements).foldl declareVariable
    { procedures := statements.filterMap Statement.procedure? }

/-- The procedures and the variables of some statements, behind what is there already. -/
def extend (env : Environment) (statements : List Statement) : Environment :=
  (Statement.listVariables statements).foldl declareVariable
    { env with procedures := env.procedures ++ statements.filterMap Statement.procedure? }

theorem extend_empty (statements : List Statement) :
    extend {} statements = ofTree statements := rfl

theorem extend_nil (env : Environment) : env.extend [] = env := by
  simp [extend, Statement.listVariables]

/-- The list of procedures has no influence on which variables are noted. -/
theorem declareVariables_procedures (env : Environment) (names : List String)
    (procedures : List Procedure) : names.foldl declareVariable { env with procedures } =
      { names.foldl declareVariable env with procedures } := by
  induction names generalizing env with
  | nil => rfl
  | cons name names ih =>
    have hname : declareVariable { env with procedures } name =
        { env.declareVariable name with procedures } := by
      unfold declareVariable
      split <;> rfl
    rw [List.foldl_cons, List.foldl_cons, hname, ih]

theorem declareVariables_eq (env : Environment) (names : List String) :
    ∃ declared, names.foldl declareVariable env = { env with declared } := by
  induction names generalizing env with
  | nil => exact ⟨env.declared, rfl⟩
  | cons name names ih =>
    rw [List.foldl_cons]
    obtain ⟨declared, h⟩ := ih (env.declareVariable name)
    refine ⟨declared, h.trans ?_⟩
    unfold declareVariable
    split <;> rfl

theorem declareVariables_keeps (env : Environment) (names : List String) :
    (names.foldl declareVariable env).procedures = env.procedures := by
  obtain ⟨declared, h⟩ := declareVariables_eq env names
  rw [h]

/-- A statement that declares no procedure. -/
theorem extend_statement (env : Environment) {s : Statement} (h : s.procedure? = none)
    (ss : List Statement) :
    env.extend (s :: ss) = (s.variables.foldl declareVariable env).extend ss := by
  simp only [extend, Statement.listVariables, List.foldl_append, List.filterMap_cons_none h,
    declareVariables_procedures, declareVariables_keeps]

/-- A procedure. -/
theorem extend_marker (env : Environment) (p : Procedure) (ss : List Statement) :
    env.extend (p.marker :: ss) =
      ({ p.marker.variables.foldl declareVariable env with
        procedures := env.procedures ++ [p] } : Environment).extend ss := by
  simp only [extend, Statement.listVariables, List.foldl_append,
    List.filterMap_cons_some p.procedure?_marker, declareVariables_procedures, List.append_assoc,
    List.singleton_append]

end Environment

/-! ## Readers with and without a recording -/

namespace Recording

/-- Notes some variables, unless their names are the procedure's own. -/
def mentionAll (s : Recording) (names : List String) : Recording :=
  names.foldl mention s

theorem mentionAll_append (s : Recording) (names more : List String) :
    s.mentionAll (names ++ more) = (s.mentionAll names).mentionAll more :=
  List.foldl_append

/-- The variables of the program among some names. -/
def others (s : Recording) (names : List String) : List String :=
  names.filter fun x => !s.own.contains x

theorem mentionAll_eq (s : Recording) (names : List String) : s.mentionAll names =
    ⟨(s.others names).foldl Environment.declareVariable s.environment, s.own⟩ := by
  induction names generalizing s with
  | nil => rfl
  | cons name names ih =>
    show (s.mention name).mentionAll names = _
    rw [ih]
    by_cases h : name ∈ s.own <;> simp [mention, others, h]

/-- Outside of procedures all names are variables of the program. -/
theorem mentionAll_outside (env : Environment) (names : List String) :
    mentionAll ⟨env, []⟩ names = ⟨names.foldl Environment.declareVariable env, []⟩ := by
  rw [mentionAll_eq, others, List.filter_eq_self.2 (by simp)]

/-- From the recording `s` on, the reader `x` comes to what `y` comes to, which records nothing.
When it reads `a`, it leaves the recording `after a` behind. -/
def Records {α : Type} (s : Recording) (x : Reading α) (y : Except ParseError α)
    (after : α → Recording) : Prop :=
  x s = y.map fun a => (a, after a)

namespace Records

variable {s : Recording} {α β γ : Type}

theorem pure {a : α} {after : α → Recording} (h : after a = s) :
    Records s (Pure.pure a) (Pure.pure a) after := by
  rw [← h]
  rfl

/-- A step that has nothing to do with the recording. -/
theorem lift (x : Except ParseError α) : Records s (liftM x) (liftM x) fun _ => s := by
  cases x <;> rfl

/-- One reader after another, which starts with what the first one has recorded. -/
theorem bind_of_ok {x : Reading α} {y : Except ParseError α} {after : α → Recording}
    {f : α → Reading β} {g : α → Except ParseError β} {after' : β → Recording}
    (h : Records s x y after) (hf : ∀ a, y = .ok a → Records (after a) (f a) (g a) after') :
    Records s (x >>= f) (y >>= g) after' := by
  show (x s >>= fun r => f r.1 r.2) = _
  rw [h]
  cases y with
  | error e => rfl
  | ok a => exact hf a rfl

theorem bind {x : Reading α} {y : Except ParseError α} {after : α → Recording}
    {f : α → Reading β} {g : α → Except ParseError β} {after' : β → Recording}
    (h : Records s x y after) (hf : ∀ a, Records (after a) (f a) (g a) after') :
    Records s (x >>= f) (y >>= g) after' :=
  h.bind_of_ok fun a _ => hf a

/-- A step more behind a reader that is put together already. -/
theorem bind_then {x : Reading α} {y : Except ParseError α} {after : α → Recording}
    {f : α → Reading β} {g : α → Except ParseError γ} {k : γ → Except ParseError β}
    {after' : β → Recording} (h : Records s x y after)
    (hf : ∀ a, Records (after a) (f a) (g a >>= k) after') :
    Records s (x >>= f) (y >>= g >>= k) after' := by
  rw [bind_assoc]
  exact h.bind hf

/-- Names of the procedure's own hold for its body only. -/
theorem within {own : List String} {x : Reading α} {y : Except ParseError α}
    {after : α → Recording} (h : Records { s with own } x y after) :
    Records s (Recorder.within own x) (Recorder.within own y) fun a =>
      { after a with own := [] } := by
  show (x { s with own } >>= fun r => _) = _
  rw [h]
  cases y <;> rfl

theorem mention (name : String) : Records s (Recorder.mention name) (Recorder.mention name)
    fun _ => s.mention name := rfl

end Records

end Recording

/-! ## Expressions -/

namespace Parser

open Recording

variable {finish : Except LexError Token}

/-- The phrases of a tier that are read from fewer than `n` tokens leave their variables in the
recording. -/
def PhraseRecorded (finish : Except LexError Token) (n tier : Nat) : Prop :=
  ∀ (s : Recording) (ts : List Token), ts.length < n →
    Records s (phrase finish tier ts) (phrase finish tier ts) fun a => s.mentionAll a.1.variables

theorem recorded_operands {n tier : Nat} (ht : tier < 3) (hp : PhraseRecorded finish n tier)
    (s : Recording) (left : Expression) (ts : List Token) (hn : ts.length ≤ n) :
    Records (s.mentionAll left.variables) (operands finish tier left ts)
      (operands finish tier left ts) fun a => s.mentionAll a.1.variables := by
  obtain ⟨l, hl⟩ : ∃ l, ts.length = l := ⟨_, rfl⟩
  induction l using Nat.strongRecOn generalizing left ts with
  | ind l ih =>
    cases ts with
    | nil =>
      rw [operands_nil ht, operands_nil ht]
      exact .pure rfl
    | cons t rest =>
      rw [List.length_cons] at hn hl
      rw [operands_cons ht, operands_cons ht]
      split
      next => exact .pure rfl
      next op hop =>
        refine .bind (.lift _) fun _ => ?_
        refine .bind (hp _ rest (by omega)) ?_
        rintro ⟨right, r₁, h₁⟩
        have hleft : (s.mentionAll left.variables).mentionAll right.variables =
            s.mentionAll (Expression.binary left op right).variables :=
          (mentionAll_append s left.variables right.variables).symm
        rw [hleft]
        refine .bind (ih r₁.length (by omega) _ r₁ (by omega) rfl) ?_
        rintro ⟨e, r₂, h₂⟩
        exact .pure rfl

/-- From the phrases of one tier to the next. -/
theorem PhraseRecorded.succ {n tier : Nat} (ht : tier < 3) (hp : PhraseRecorded finish n tier) :
    PhraseRecorded finish n (tier + 1) := by
  intro s ts hn
  rw [phrase_succ ht, phrase_succ ht]
  refine .bind (hp s ts hn) ?_
  rintro ⟨left, r₁, h₁⟩
  refine .bind (recorded_operands ht hp s left r₁ (by omega)) ?_
  rintro ⟨e, r₂, h₂⟩
  exact .pure rfl

theorem recorded_moreArguments {n : Nat} (hp : PhraseRecorded finish n 2) (s : Recording)
    (ts : List Token) (hn : ts.length ≤ n) :
    Records s (moreArguments finish ts) (moreArguments finish ts) fun a =>
      s.mentionAll (Expression.listVariables a.1) := by
  obtain ⟨l, hl⟩ : ∃ l, ts.length = l := ⟨_, rfl⟩
  induction l using Nat.strongRecOn generalizing s ts with
  | ind l ih =>
    rw [moreArguments.eq_def, moreArguments.eq_def]
    split
    next => exact .pure rfl
    next t rest =>
      rw [List.length_cons] at hn hl
      split
      next =>
        refine .bind (.lift _) fun _ => ?_
        refine .bind (hp s rest (by omega)) ?_
        rintro ⟨e, r₁, h₁⟩
        refine .bind (ih r₁.length (by omega) _ r₁ (by omega) rfl) ?_
        rintro ⟨es, r₂, h₂⟩
        exact .pure (mentionAll_append s _ _)
      next => exact .pure rfl

theorem recorded_arguments {n : Nat} (hp : PhraseRecorded finish n 2) (s : Recording)
    (ts : List Token) (hn : ts.length < n) :
    Records s (arguments finish ts) (arguments finish ts) fun a =>
      s.mentionAll (Expression.listVariables a.1) := by
  rw [arguments, arguments]
  split
  next => exact .pure rfl
  next =>
    refine .bind (hp s ts hn) ?_
    rintro ⟨e, r₁, h₁⟩
    refine .bind (recorded_moreArguments hp _ r₁ (by omega)) ?_
    rintro ⟨es, r₂, h₂⟩
    exact .pure (mentionAll_append s _ _)

theorem recorded_factor {n : Nat} (hp : ∀ tier ≤ 3, PhraseRecorded finish n tier) :
    PhraseRecorded finish (n + 1) 0 := by
  intro s ts hn
  simp only [phrase]
  rw [factor.eq_def, factor.eq_def]
  split
  · exact .lift _
  next t rest =>
    rw [List.length_cons] at hn
    split
    next =>
      refine .bind (.lift _) fun _ => ?_
      refine .bind (hp 3 (by omega) s rest (by omega)) ?_
      rintro ⟨e, r₁, h₁⟩
      exact .bind (.lift _) fun _ => .pure rfl
    next =>
      refine .bind (.lift _) fun _ => ?_
      refine .bind (hp 0 (by omega) s rest (by omega)) ?_
      rintro ⟨e, r₁, h₁⟩
      exact .pure (congrArg s.mentionAll (List.append_nil _))
    next value _ => exact .bind (.lift _) fun _ => .pure rfl
    next name _ =>
      refine .bind (.lift _) fun _ => ?_
      split
      next =>
        refine .bind (.lift _) ?_
        rintro ⟨r₁, h₁⟩
        refine .bind (recorded_arguments (hp 2 (by omega)) s r₁ (by omega)) ?_
        rintro ⟨values, r₂, h₂⟩
        exact .bind (.lift _) fun _ => .pure rfl
      next => exact .bind (.mention name) fun _ => .pure rfl
    next => exact .lift _

theorem recorded_phrases (finish : Except LexError Token) (n : Nat) :
    ∀ tier ≤ 3, PhraseRecorded finish n tier := by
  induction n with
  | zero => exact fun tier _ s ts hn => absurd hn (by omega)
  | succ n ih =>
    intro tier ht
    induction tier with
    | zero => exact recorded_factor ih
    | succ tier iht => exact (iht (by omega)).succ (by omega)

theorem recorded_phrase (tier : Nat) (ht : tier ≤ 3) (s : Recording) (ts : List Token) :
    Records s (phrase finish tier ts) (phrase finish tier ts) fun a =>
      s.mentionAll a.1.variables :=
  recorded_phrases finish (ts.length + 1) tier ht s ts (by omega)

/-! ## Statements -/

/-- The statements that are read from fewer than `n` tokens leave their variables in the
recording. -/
def StatementRecorded (finish : Except LexError Token) (n : Nat) : Prop :=
  ∀ (s : Recording) (ts : List Token), ts.length < n →
    Records s (statement finish ts) (statement finish ts) fun a => s.mentionAll a.1.variables

theorem recorded_statementsUntil {n : Nat} (hs : StatementRecorded finish n)
    (stops : List Keyword) (s : Recording) (ts : List Token) (hn : ts.length < n) :
    Records s (statementsUntil finish stops ts) (statementsUntil finish stops ts) fun a =>
      s.mentionAll (Statement.listVariables a.1) := by
  obtain ⟨l, hl⟩ : ∃ l, ts.length = l := ⟨_, rfl⟩
  induction l using Nat.strongRecOn generalizing s ts with
  | ind l ih =>
    rw [statementsUntil, statementsUntil]
    split
    next => exact .pure rfl
    next =>
      refine .bind (hs s ts hn) ?_
      rintro ⟨first, r₁, h₁⟩
      refine .bind (ih r₁.length (by omega) _ r₁ (by omega) rfl) ?_
      rintro ⟨ss, r₂, h₂⟩
      exact .pure (mentionAll_append s _ _)

theorem recorded_alternative {n : Nat} (hs : StatementRecorded finish n) (s : Recording)
    (ts : List Token) (hn : ts.length < n) :
    Records s (alternative finish ts) (alternative finish ts) fun a =>
      s.mentionAll (Statement.listVariables a.1) := by
  rw [alternative, alternative]
  split
  next =>
    refine .bind (.lift _) ?_
    rintro ⟨r₁, h₁⟩
    refine .bind (recorded_statementsUntil hs _ s r₁ (by omega)) ?_
    rintro ⟨body, r₂, h₂⟩
    exact .pure rfl
  next => exact .pure rfl

theorem recorded_statements (finish : Except LexError Token) (n : Nat) :
    StatementRecorded finish n := by
  induction n with
  | zero => exact fun s ts hn => absurd hn (by omega)
  | succ n ih =>
    intro s ts hn
    rw [statement.eq_def, statement.eq_def]
    split
    · exact .lift _
    next t rest =>
      rw [List.length_cons] at hn
      split
      next =>
        refine .bind (.lift _) fun _ => ?_
        refine .bind (recorded_phrase 3 (by omega) s rest) ?_
        rintro ⟨e, r₁, h₁⟩
        exact .pure rfl
      next =>
        refine .bind (.lift _) fun _ => ?_
        refine .bind (recorded_statementsUntil ih _ s rest (by omega)) ?_
        rintro ⟨body, r₁, h₁⟩
        refine .bind (.lift _) fun _ => ?_
        exact .bind (.lift _) fun _ => .pure rfl
      next =>
        refine .bind (.lift _) fun _ => ?_
        refine .bind (recorded_phrase 3 (by omega) s rest) ?_
        rintro ⟨condition, r₁, h₁⟩
        refine .bind (.lift _) ?_
        rintro ⟨r₂, h₂⟩
        refine .bind (recorded_statementsUntil ih _ _ r₂ (by omega)) ?_
        rintro ⟨onTrue, r₃, h₃⟩
        refine .bind (recorded_alternative ih _ r₃ (by omega)) ?_
        rintro ⟨onFalse, r₄, h₄⟩
        refine .bind (.lift _) fun _ => .pure ?_
        simp only [Statement.variables, mentionAll_append]
      next =>
        refine .bind (.lift _) fun _ => ?_
        refine .bind (recorded_phrase 3 (by omega) s rest) ?_
        rintro ⟨condition, r₁, h₁⟩
        refine .bind (.lift _) ?_
        rintro ⟨r₂, h₂⟩
        refine .bind (recorded_statementsUntil ih _ _ r₂ (by omega)) ?_
        rintro ⟨body, r₃, h₃⟩
        exact .bind (.lift _) fun _ => .pure (mentionAll_append s _ _)
      next =>
        refine .bind (.lift _) fun _ => ?_
        refine .bind (.lift _) ?_
        rintro ⟨name, r₁, h₁⟩
        exact .bind (.mention name) fun _ => .pure rfl
      next =>
        refine .bind (.lift _) fun _ => ?_
        refine .bind (recorded_phrase 2 (by omega) s rest) ?_
        rintro ⟨e, r₁, h₁⟩
        exact .pure rfl
      next =>
        refine .bind (.lift _) ?_
        rintro ⟨r₀, h₀⟩
        refine .bind (.lift _) ?_
        rintro ⟨name, r₁, h₁⟩
        -- The target is noted as soon as it is read, before the variables of the value.
        refine .bind (.mention name) fun _ => ?_
        refine .bind (.lift _) ?_
        rintro ⟨r₂, h₂⟩
        refine .bind (recorded_phrase 2 (by omega) _ r₂) ?_
        rintro ⟨e, r₃, h₃⟩
        exact .pure rfl

/-! ## Declarations -/

/-- The variables of a procedure's body, with its own names left out. -/
theorem mentionAll_body (env : Environment) (p : Procedure) :
    { mentionAll ⟨env, p.parameters ++ [p.name]⟩ (Statement.listVariables p.body) with own := [] } =
      (⟨p.marker.variables.foldl Environment.declareVariable env, []⟩ : Recording) := by
  have hothers : (⟨env, p.parameters ++ [p.name]⟩ : Recording).others
      (Statement.listVariables p.body) = p.marker.variables := by
    refine List.filter_congr fun x _ => ?_
    simp [Bool.or_comm]
  rw [mentionAll_eq, hothers]

theorem run_declare (env : Environment) (p : Procedure) :
    (declare p : Reading Unit) ⟨env, []⟩ =
      if (env.procedures.map Procedure.name).contains p.name then
        .error (.duplicateProcedure p.name)
      else .ok ((), ⟨{ env with procedures := env.procedures ++ [p] }, []⟩) := by
  have hany : (env.procedures.map Procedure.name).contains p.name =
      env.procedures.any fun q => q.name = p.name := by
    rw [Bool.eq_iff_iff]
    simp
  have hdeclare : env.declareProcedure p =
      if (env.procedures.map Procedure.name).contains p.name then
        .error (.duplicateProcedure p.name)
      else .ok { env with procedures := env.procedures ++ [p] } := by
    rw [hany]
    rfl
  show (liftM (Recording.declare ⟨env, []⟩ p) : Reading Recording) ⟨env, []⟩ >>= _ = _
  rw [Recording.declare, hdeclare]
  by_cases h : (env.procedures.map Procedure.name).contains p.name
  · rw [if_pos h, if_pos h]
    rfl
  · rw [if_neg h, if_neg h]
    rfl

/-- A procedure is recorded behind its body, if its name is new. -/
theorem recorded_declaration (env : Environment) (ts : List Token) :
    Records ⟨env, []⟩ (declaration finish ts)
      (do
        let a ← declaration finish ts
        if (env.procedures.map Procedure.name).contains a.1.name then
          throw (.duplicateProcedure a.1.name)
        return a)
      fun a => ⟨{ a.1.marker.variables.foldl Environment.declareVariable env with
        procedures := env.procedures ++ [a.1] }, []⟩ := by
  unfold declaration
  refine .bind_then (.lift _) ?_
  rintro ⟨r₁, h₁⟩
  refine .bind_then (.lift _) ?_
  rintro ⟨name, r₂, h₂⟩
  refine .bind_then (.lift _) ?_
  rintro ⟨r₃, h₃⟩
  refine .bind_then (.lift _) ?_
  rintro ⟨names, r₄, h₄⟩
  refine .bind_then (.lift _) ?_
  rintro ⟨r₅, h₅⟩
  refine .bind_then (.within (recorded_statementsUntil (recorded_statements finish _) _ _ r₅
    (Nat.lt_add_one _))) ?_
  rintro ⟨body, r₆, h₆⟩
  rw [mentionAll_body env ⟨name, names, body⟩]
  refine .bind_then (.lift _) ?_
  rintro ⟨r₇, h₇⟩
  generalize (⟨name, names, body⟩ : Procedure) = p
  have hdeclare := run_declare (p.marker.variables.foldl Environment.declareVariable env) p
  rw [Environment.declareVariables_keeps] at hdeclare
  show (declare p : Reading Unit) ⟨_, []⟩ >>= _ = _
  rw [hdeclare]
  show _ = Except.map _ (if (env.procedures.map Procedure.name).contains p.name then _ else _)
  split <;> rfl

/-! ## Programs -/

/-- The words that are not for a statement. -/
def NoSentence (kind : Token.Kind) : Prop :=
  Closing kind ∨ kind = .keyword .procedure

section

variable {declared : List String} {ts : List Token}

theorem topLevel_eq_sentence (hk : ¬ NoSentence (front ts)) : topLevel finish declared ts = (do
    let (s, ⟨rest, _⟩) ← statement finish ts
    let ss ← topLevel finish declared rest
    return s :: ss) := by
  rw [topLevel.eq_def]
  split
  next h => exact absurd (.inl (.inl h)) hk
  next h => exact absurd (.inl (.inr (.inl h))) hk
  next h => exact absurd (.inl (.inr (.inr h))) hk
  next h => exact absurd (.inr h) hk
  next => rfl

theorem topLevel_eq_declaration (hk : front ts = .keyword .procedure) :
    topLevel finish declared ts = (do
      let a ← declaration finish ts
      if declared.contains a.1.name then throw (.duplicateProcedure a.1.name)
      return a) >>= fun a => do
        let ss ← topLevel finish (declared ++ [a.1.name]) a.2
        return a.1.marker :: ss := by
  rw [topLevel.eq_def, bind_assoc]
  simp only [hk]
  refine bind_congr fun a => ?_
  split <;> rfl

theorem program_eq_sentence (hk : ¬ NoSentence (front ts)) : (program finish ts : Reading _) = (do
    let (s, ⟨rest, _⟩) ← statement finish ts
    let ss ← program finish rest
    return s :: ss) := by
  rw [program.eq_def]
  split
  next h => exact absurd (.inl (.inl h)) hk
  next h => exact absurd (.inl (.inr (.inl h))) hk
  next h => exact absurd (.inl (.inr (.inr h))) hk
  next h => exact absurd (.inr h) hk
  next => rfl

end

theorem procedure?_of_statement {ts : List Token} {s : Statement} {r : Shorter ts}
    (h : (statement finish ts : Except ParseError _) = .ok (s, r)) : s.procedure? = none := by
  obtain ⟨d, -, rfl⟩ := sentence_sound finish (ts.length + 1) ts s r (Nat.lt_add_one _) h
  cases d <;> rfl

/-- What is recorded while the text is read extends the environment by the tree. The names of the
procedures in it are those that the text may not declare again. -/
theorem recorded_program (finish : Except LexError Token) (env : Environment) (ts : List Token) :
    Records ⟨env, []⟩ (program finish ts)
      (topLevel finish (env.procedures.map Procedure.name) ts)
      fun tree => ⟨env.extend tree, []⟩ := by
  obtain ⟨l, hl⟩ : ∃ l, ts.length = l := ⟨_, rfl⟩
  induction l using Nat.strongRecOn generalizing env ts with
  | ind l ih =>
    have hnil : (⟨env.extend [], []⟩ : Recording) = ⟨env, []⟩ := by rw [env.extend_nil]
    by_cases hk : NoSentence (front ts)
    · obtain (hk | hk | hk) | hk := hk
      · rw [program.eq_def, topLevel.eq_def]
        simp only [hk]
        exact .bind (.lift _) fun _ => .pure hnil
      · rw [program.eq_def, topLevel.eq_def]
        simp only [hk]
        exact .bind (.lift _) fun _ => .pure hnil
      · rw [program.eq_def, topLevel.eq_def]
        simp only [hk]
        exact .pure hnil
      · rw [topLevel_eq_declaration hk, program.eq_def]
        simp only [hk]
        refine .bind (recorded_declaration env ts) ?_
        rintro ⟨p, rest, hr⟩
        have hrest := ih rest.length (by omega) { p.marker.variables.foldl
          Environment.declareVariable env with procedures := env.procedures ++ [p] } rest rfl
        rw [List.map_append] at hrest
        refine .bind hrest fun ss => .pure ?_
        rw [env.extend_marker]
    · rw [topLevel_eq_sentence hk, program_eq_sentence hk]
      refine .bind_of_ok (recorded_statements finish _ _ ts (Nat.lt_add_one _)) ?_
      rintro ⟨s, rest, hr⟩ hs
      have hrest := ih rest.length (by omega) (s.variables.foldl
        Environment.declareVariable env) rest rfl
      rw [Environment.declareVariables_keeps] at hrest
      rw [mentionAll_outside]
      refine .bind hrest fun ss => .pure ?_
      rw [env.extend_statement (procedure?_of_statement hs)]

end Parser

/-! ## Whole texts -/

theorem parse_eq_topLevel (source : String) : Program.parse source = (do
    ready (Lexer.ofString source).scan.finish (Lexer.ofString source).scan.tokens
    topLevel (Lexer.ofString source).scan.finish [] (Lexer.ofString source).scan.tokens).map
      fun tree => ⟨tree, .ofTree tree⟩ := by
  have hrun := recorded_program (Lexer.ofString source).scan.finish {}
    (Lexer.ofString source).scan.tokens
  show (ready _ _ >>= fun _ => (program _ _ : Recording.Reading _) ⟨{}, []⟩ >>= fun r => _) = _
  rw [hrun]
  cases ready (Lexer.ofString source).scan.finish (Lexer.ofString source).scan.tokens with
  | error e => rfl
  | ok _ =>
    show (topLevel _ [] _).map _ >>= _ = (topLevel _ [] _).map _
    cases topLevel (Lexer.ofString source).scan.finish [] (Lexer.ofString source).scan.tokens <;>
      rfl

/-- The tree of a source text is what is read of it without a recording. -/
theorem parseTree_eq (source : String) : parseTree source = (do
    ready (Lexer.ofString source).scan.finish (Lexer.ofString source).scan.tokens
    topLevel (Lexer.ofString source).scan.finish [] (Lexer.ofString source).scan.tokens) := by
  have htree (x : Except ParseError (List Statement)) :
      (x.map fun tree => (⟨tree, .ofTree tree⟩ : Program)).map Program.tree = x := by
    cases x <;> rfl
  rw [parseTree, parse_eq_topLevel, htree]

/-- The environment that has been recorded is the one that the walk through the tree finds. -/
theorem Program.parse_eq (source : String) :
    Program.parse source = (parseTree source).map fun tree => ⟨tree, .ofTree tree⟩ := by
  rw [parseTree_eq, parse_eq_topLevel]

/-- The procedures of a source text have different names. -/
theorem parseTree_nodup {source : String} {ss : List Statement} (h : parseTree source = .ok ss) :
    ((ss.filterMap Statement.procedure?).map Procedure.name).Nodup := by
  rw [parseTree_eq] at h
  obtain ⟨_, -, h⟩ := eq_ok_of_bind h
  obtain ⟨items, _, -, -, rfl, hn⟩ := topLevel_sound h List.nodup_nil
  rw [procedures_tree]
  exact hn

end Blockwork
