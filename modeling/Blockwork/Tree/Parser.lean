import Blockwork.Token.Lexer

/-!
# Parsing

Statements and expressions are read from a list of tokens by recursive descent with one token of
lookahead. Operators have four tiers, loosest first: `conditional` (comparisons), `sum`, `product`
and `factor`; all of them group to the left.

* `Recorder`: what is recorded on the way, besides the tree.
* `Shorter`, `NoLonger`: the tokens left over after a part of the tree.
* `relation?`, `additive?`, `multiplicative?`: the operators of each tier.
* `statement`, `statementsUntil`: the statements; a list of them ends before a stop word.
* `declaration`, `program`: procedures, which stand between the outermost statements only. Text
  after the closing `end` or `endfile` is not read, except for the one token behind it.

The tokens are those before the first fault of the text. A function here gets `finish`, what the
scan came to after them, so that a fault is reported as soon as the token before it is used up.
-/

namespace Blockwork

namespace Parser

/-! ## Recording -/

/-- A way to read that records variables and procedures where it meets them. -/
class Recorder (m : Type → Type) where
  /-- Records that a variable is mentioned. -/
  mention (name : String) : m Unit
  /-- Reads the body of a procedure, with the names that are the procedure's own. -/
  within {α : Type} (own : List String) (body : m α) : m α
  /-- Records a procedure, or fails if there is one of its name. -/
  declare (p : Procedure) : m Unit

export Recorder (mention within declare)

/-- The tokens left over after a part of the tree, which has at least one token. -/
abbrev Shorter (ts : List Token) := { rest : List Token // rest.length < ts.length }

/-- The tokens left over after a part of the tree that may be empty. -/
abbrev NoLonger (ts : List Token) := { rest : List Token // rest.length ≤ ts.length }

/-! ## Single tokens -/

/-- The kind of the first token. -/
def front : List Token → Token.Kind
  | [] => .endOfInput
  | t :: _ => t.kind

variable (finish : Except LexError Token)

/-- The error for a first token that is not the expected one. -/
def mismatch (expected : Expectation) (ts : List Token) : ParseError :=
  match ts, finish with
  | t :: _, _ | [], .ok t => .mismatch expected t.kind t.span.line (t.span.column + 1)
  | [], .error fault => .scan fault

/-- Fails if the text is faulty where the next token should be. -/
def ready (ts : List Token) : Except ParseError Unit :=
  match ts, finish with
  | [], .error fault => .error (.scan fault)
  | _, _ => .ok ()

/-- Fails at the next token. -/
def refuse {α : Type} (expected : Expectation) (ts : List Token) : Except ParseError α :=
  .error (mismatch finish expected ts)

/-- Passes over a token of the given kind. -/
def eat (kind : Token.Kind) (ts : List Token) : Except ParseError (Shorter ts) :=
  match ts with
  | [] => .error (mismatch finish (.kind kind) [])
  | t :: rest =>
    if t.kind = kind then do
      ready finish rest
      return ⟨rest, by simp⟩
    else .error (mismatch finish (.kind kind) (t :: rest))

/-- Passes over a name. -/
def identifier (ts : List Token) : Except ParseError (String × Shorter ts) :=
  match ts with
  | [] => .error (mismatch finish .identifier [])
  | t :: rest =>
    match t.kind with
    | .identifier name => do
      ready finish rest
      return (name, ⟨rest, by simp⟩)
    | _ => .error (mismatch finish .identifier (t :: rest))

/-- The rest of a list of names: a comma before each of them. -/
def moreIdentifiers (ts : List Token) : Except ParseError (List String × NoLonger ts) :=
  match ts with
  | [] => return ([], ⟨[], Nat.le_refl _⟩)
  | t :: rest =>
    if t.kind = .symbol .comma then do
      ready finish rest
      let (name, ⟨r₁, _⟩) ← identifier finish rest
      let (names, ⟨r₂, _⟩) ← moreIdentifiers r₁
      return (name :: names, ⟨r₂, by simp; omega⟩)
    else return ([], ⟨t :: rest, Nat.le_refl _⟩)
termination_by ts.length
decreasing_by simp; omega

/-- The parameters of a procedure, up to the closing parenthesis. -/
def parameters (ts : List Token) : Except ParseError (List String × NoLonger ts) :=
  if front ts = .symbol .rightParen then return ([], ⟨ts, Nat.le_refl _⟩)
  else do
    let (name, ⟨r₁, _⟩) ← identifier finish ts
    let (names, ⟨r₂, _⟩) ← moreIdentifiers finish r₁
    return (name :: names, ⟨r₂, by omega⟩)

/-! ## Expressions -/

/-- The comparisons, the loosest tier. -/
def relation? : Token.Kind → Option Operator
  | .symbol .equal => some .equal
  | .symbol .notEqual => some .notEqual
  | .symbol .less => some .less
  | .symbol .lessEqual => some .lessEqual
  | .symbol .greater => some .greater
  | .symbol .greaterEqual => some .greaterEqual
  | _ => none

/-- The operators between the terms of a sum. -/
def additive? : Token.Kind → Option Operator
  | .symbol .plus => some .add
  | .symbol .minus => some .subtract
  | _ => none

/-- The operators between the factors of a product, the tightest tier. -/
def multiplicative? : Token.Kind → Option Operator
  | .symbol .star => some .multiply
  | .symbol .slash => some .divide
  | _ => none

variable {m : Type → Type} [Monad m] [MonadLiftT (Except ParseError) m] [Recorder m]

mutual

/-- Sums with comparisons between them. -/
def conditional (ts : List Token) : m (Expression × Shorter ts) := do
  let (e, ⟨r₁, _⟩) ← sum ts
  let (e, ⟨r₂, _⟩) ← moreSums e r₁
  return (e, ⟨r₂, by omega⟩)
termination_by 8 * ts.length + 4

def moreSums (left : Expression) (ts : List Token) : m (Expression × NoLonger ts) :=
  match ts with
  | [] => return (left, ⟨[], Nat.le_refl _⟩)
  | t :: rest =>
    match relation? t.kind with
    | none => return (left, ⟨t :: rest, Nat.le_refl _⟩)
    | some op => do
      ready finish rest
      let (right, ⟨r₁, _⟩) ← sum rest
      let (e, ⟨r₂, _⟩) ← moreSums (.binary left op right) r₁
      return (e, ⟨r₂, by simp; omega⟩)
termination_by 8 * ts.length

/-- Products with plus and minus signs between them. -/
def sum (ts : List Token) : m (Expression × Shorter ts) := do
  let (e, ⟨r₁, _⟩) ← product ts
  let (e, ⟨r₂, _⟩) ← moreProducts e r₁
  return (e, ⟨r₂, by omega⟩)
termination_by 8 * ts.length + 3

def moreProducts (left : Expression) (ts : List Token) : m (Expression × NoLonger ts) :=
  match ts with
  | [] => return (left, ⟨[], Nat.le_refl _⟩)
  | t :: rest =>
    match additive? t.kind with
    | none => return (left, ⟨t :: rest, Nat.le_refl _⟩)
    | some op => do
      ready finish rest
      let (right, ⟨r₁, _⟩) ← product rest
      let (e, ⟨r₂, _⟩) ← moreProducts (.binary left op right) r₁
      return (e, ⟨r₂, by simp; omega⟩)
termination_by 8 * ts.length

/-- Factors with multiplication and division signs between them. -/
def product (ts : List Token) : m (Expression × Shorter ts) := do
  let (e, ⟨r₁, _⟩) ← factor ts
  let (e, ⟨r₂, _⟩) ← moreFactors e r₁
  return (e, ⟨r₂, by omega⟩)
termination_by 8 * ts.length + 2

def moreFactors (left : Expression) (ts : List Token) : m (Expression × NoLonger ts) :=
  match ts with
  | [] => return (left, ⟨[], Nat.le_refl _⟩)
  | t :: rest =>
    match multiplicative? t.kind with
    | none => return (left, ⟨t :: rest, Nat.le_refl _⟩)
    | some op => do
      ready finish rest
      let (right, ⟨r₁, _⟩) ← factor rest
      let (e, ⟨r₂, _⟩) ← moreFactors (.binary left op right) r₁
      return (e, ⟨r₂, by simp; omega⟩)
termination_by 8 * ts.length

/-- A number, a variable, a call, a negated factor, or any expression in parentheses. -/
def factor (ts : List Token) : m (Expression × Shorter ts) :=
  match ts with
  | [] => refuse finish .expression []
  | t :: rest =>
    match t.kind with
    | .symbol .leftParen => do
      ready finish rest
      let (e, ⟨r₁, _⟩) ← conditional rest
      let ⟨r₂, _⟩ ← eat finish (.symbol .rightParen) r₁
      return (e, ⟨r₂, by simp; omega⟩)
    | .symbol .minus => do
      ready finish rest
      let (e, ⟨r₁, _⟩) ← factor rest
      return (e.negate, ⟨r₁, by simp; omega⟩)
    | .integer value => do
      ready finish rest
      return (.number value, ⟨rest, by simp⟩)
    | .identifier name => do
      ready finish rest
      if front rest = .symbol .leftParen then
        let ⟨r₁, _⟩ ← eat finish (.symbol .leftParen) rest
        let (values, ⟨r₂, _⟩) ← arguments r₁
        let ⟨r₃, _⟩ ← eat finish (.symbol .rightParen) r₂
        return (.call name values, ⟨r₃, by simp; omega⟩)
      else
        mention name
        return (.variable name, ⟨rest, by simp⟩)
    | _ => refuse finish .expression (t :: rest)
termination_by 8 * ts.length + 1

/-- The arguments of a call, up to the closing parenthesis. They are sums: a comparison among them
needs parentheses of its own. -/
def arguments (ts : List Token) : m (List Expression × NoLonger ts) :=
  if front ts = .symbol .rightParen then return ([], ⟨ts, Nat.le_refl _⟩)
  else do
    let (e, ⟨r₁, _⟩) ← sum ts
    let (es, ⟨r₂, _⟩) ← moreArguments r₁
    return (e :: es, ⟨r₂, by omega⟩)
termination_by 8 * ts.length + 4

def moreArguments (ts : List Token) : m (List Expression × NoLonger ts) :=
  match ts with
  | [] => return ([], ⟨[], Nat.le_refl _⟩)
  | t :: rest =>
    if t.kind = .symbol .comma then do
      ready finish rest
      let (e, ⟨r₁, _⟩) ← sum rest
      let (es, ⟨r₂, _⟩) ← moreArguments r₁
      return (e :: es, ⟨r₂, by simp; omega⟩)
    else return ([], ⟨t :: rest, Nat.le_refl _⟩)
termination_by 8 * ts.length

end

/-! ## Statements -/

/-- Passes over a semicolon if there is one. -/
def skipSemicolon (ts : List Token) : Except ParseError (NoLonger ts) :=
  if front ts = .symbol .semicolon then do
    let ⟨r, _⟩ ← eat finish (.symbol .semicolon) ts
    return ⟨r, by omega⟩
  else return ⟨ts, Nat.le_refl _⟩

/-- A branch opens with `then` or with `do`. -/
def eatThen (ts : List Token) : Except ParseError (Shorter ts) :=
  if front ts = .keyword .then then eat finish (.keyword .then) ts
  else eat finish (.keyword .do) ts

mutual

/-- One statement. The word for what begins none of them is `assign`. -/
def statement (ts : List Token) : m (Statement × Shorter ts) :=
  match ts with
  | [] => refuse finish (.kind (.keyword .assign)) []
  | t :: rest =>
    match t.kind with
    | .keyword .display => do
      ready finish rest
      let (e, ⟨r, _⟩) ← conditional finish rest
      return (.display e, ⟨r, by simp; omega⟩)
    | .keyword .begin => do
      ready finish rest
      let (body, ⟨r₁, _⟩) ← statementsUntil [.end] rest
      let ⟨r₂, _⟩ ← eat finish (.keyword .end) r₁
      let ⟨r₃, _⟩ ← skipSemicolon finish r₂
      return (.block body, ⟨r₃, by simp; omega⟩)
    | .keyword .if => do
      ready finish rest
      let (condition, ⟨r₁, _⟩) ← conditional finish rest
      let ⟨r₂, _⟩ ← eatThen finish r₁
      let (onTrue, ⟨r₃, _⟩) ← statementsUntil [.else, .end] r₂
      let (onFalse, ⟨r₄, _⟩) ← alternative r₃
      let ⟨r₅, _⟩ ← eat finish (.keyword .end) r₄
      return (.branch condition onTrue onFalse, ⟨r₅, by simp; omega⟩)
    | .keyword .while => do
      ready finish rest
      let (condition, ⟨r₁, _⟩) ← conditional finish rest
      let ⟨r₂, _⟩ ← eat finish (.keyword .do) r₁
      let (body, ⟨r₃, _⟩) ← statementsUntil [.end] r₂
      let ⟨r₄, _⟩ ← eat finish (.keyword .end) r₃
      return (.loop condition body, ⟨r₄, by simp; omega⟩)
    | .keyword .read => do
      ready finish rest
      let (name, ⟨r, _⟩) ← identifier finish rest
      mention name
      return (.read name, ⟨r, by simp; omega⟩)
    | .keyword .return => do
      ready finish rest
      let (e, ⟨r, _⟩) ← sum finish rest
      return (.return e, ⟨r, by simp; omega⟩)
    | _ => do
      let ⟨r₀, _⟩ ← eat finish (.keyword .assign) (t :: rest)
      let (name, ⟨r₁, _⟩) ← identifier finish r₀
      mention name
      let ⟨r₂, _⟩ ← eat finish (.symbol .equal) r₁
      let (e, ⟨r₃, _⟩) ← sum finish r₂
      return (.assign name e, ⟨r₃, by omega⟩)
termination_by 2 * ts.length

/-- The statements after `else`, if there is one. -/
def alternative (ts : List Token) : m (List Statement × NoLonger ts) :=
  if front ts = .keyword .else then do
    let ⟨r₁, _⟩ ← eat finish (.keyword .else) ts
    let (body, ⟨r₂, _⟩) ← statementsUntil [.end] r₁
    return (body, ⟨r₂, by omega⟩)
  else return ([], ⟨ts, Nat.le_refl _⟩)
termination_by 2 * ts.length + 1

/-- All statements before the first of the stop words. -/
def statementsUntil (stops : List Keyword) (ts : List Token) : m (List Statement × NoLonger ts) :=
  if stops.any fun word => front ts = .keyword word then return ([], ⟨ts, Nat.le_refl _⟩)
  else do
    let (s, ⟨r₁, _⟩) ← statement ts
    let (ss, ⟨r₂, _⟩) ← statementsUntil stops r₁
    return (s :: ss, ⟨r₂, by omega⟩)
termination_by 2 * ts.length + 1

end

/-! ## Programs -/

/-- A procedure, from its keyword to its `end`. -/
def declaration (ts : List Token) : m (Procedure × Shorter ts) := do
  let ⟨r₁, _⟩ ← eat finish (.keyword .procedure) ts
  let (name, ⟨r₂, _⟩) ← identifier finish r₁
  let ⟨r₃, _⟩ ← eat finish (.symbol .leftParen) r₂
  let (names, ⟨r₄, _⟩) ← parameters finish r₃
  let ⟨r₅, _⟩ ← eat finish (.symbol .rightParen) r₄
  let (body, ⟨r₆, _⟩) ← within (names ++ [name]) (statementsUntil finish [.end] r₅)
  let ⟨r₇, _⟩ ← eat finish (.keyword .end) r₆
  declare ⟨name, names, body⟩
  return (⟨name, names, body⟩, ⟨r₇, by omega⟩)

/-- The outermost statements and declarations, up to a closing word or the end of input. -/
def program (ts : List Token) : m (List Statement) :=
  match front ts with
  | .keyword .end | .keyword .endfile => do
    ready finish ts.tail
    return []
  | .endOfInput => return []
  | .keyword .procedure => do
    let (p, ⟨rest, _⟩) ← declaration finish ts
    let ss ← program rest
    return p.marker :: ss
  | _ => do
    let (s, ⟨rest, _⟩) ← statement finish ts
    let ss ← program rest
    return s :: ss
termination_by ts.length

end Parser

end Blockwork
