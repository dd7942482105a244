import Blockwork.Proofs.ParserSound

/-!
# The descent, token by token

The parser of `Blockwork.Tree.Parser` gets all tokens at once, and the rest that each of its
functions yields is shorter by its type. Here the same grammar is descended by a parser that holds
one token and asks a lexer for the next one, and it does so wherever it has looked at the token that
it holds, with no test for the end of input. It may go round in a loop, come back with nothing, or
ask again behind the end of input, and it keeps a record of all that.

* `Descent`: a part of the descent, with what it holds (`State`) and how it ends (`Outcome`).
* `advance`: the one place where the lexer is asked.
* `round`, `loop`: a record of each run of a function and of each turn of a loop.
* `phrase`, `statement`, `declaration`, `program`: the grammar. The number that they get bounds how
  often they call each other.
* `parseStepwise`: the descent of a whole text.
-/

namespace Blockwork

namespace Parser

namespace Descent

/-! ## Parts of the descent -/

/-- What is recorded: the turns of the loops, and the runs of the functions that loops rely on. -/
inductive Site where
  | program
  | block
  | operands (tier : Nat)
  | names
  | arguments
  | statement
  | factor
  deriving DecidableEq, Repr

/-- One turn of a loop, or one run of a function. -/
structure Round where
  site : Site
  /-- The number of times that the lexer was asked. -/
  asked : Nat
  /-- It was not cut off by an error. -/
  finished : Bool
  deriving DecidableEq, Repr

/-- What the descent holds, and its record. -/
structure State where
  lexer : Lexer
  current : Token
  /-- What the lexer has given so far. -/
  scanned : List (Except LexError Token)
  rounds : List Round := []

/-- How a part of the descent ends. -/
inductive Outcome (α : Type) where
  | done (value : α)
  | failed (error : ParseError)
  /-- The bound was too small. -/
  | exhausted
  deriving Repr

def Outcome.isDone {α : Type} : Outcome α → Bool
  | done _ => true
  | failed _ | exhausted => false

end Descent

/-- A part of the descent. -/
def Descent (α : Type) : Type := Descent.State → Descent.Outcome α × Descent.State

namespace Descent

variable {α β : Type}

/-- One part after another. -/
protected def bind (x : Descent α) (f : α → Descent β) : Descent β := fun s =>
  match x s with
  | (.done a, s') => f a s'
  | (.failed e, s') => (.failed e, s')
  | (.exhausted, s') => (.exhausted, s')

instance : Monad Descent where
  pure a s := (.done a, s)
  bind := Descent.bind

instance : LawfulMonad Descent :=
  LawfulMonad.mk' Descent
    (fun x => by
      funext s
      show Descent.bind x _ s = x s
      rw [Descent.bind]
      rcases x s with ⟨a | e | _, s'⟩ <;> rfl)
    (fun _ _ => rfl)
    (fun x f g => by
      funext s
      show Descent.bind (Descent.bind x f) g s = Descent.bind x _ s
      simp only [Descent.bind]
      rcases x s with ⟨a | e | _, s'⟩ <;> rfl)

theorem bind_of_done {x : Descent α} {f : α → Descent β} {a : α} {s s' : State}
    (h : x s = (.done a, s')) : (x >>= f) s = f a s' := by
  show Descent.bind x f s = _
  rw [Descent.bind, h]

theorem bind_of_failed {x : Descent α} {f : α → Descent β} {e : ParseError} {s s' : State}
    (h : x s = (.failed e, s')) : (x >>= f) s = (.failed e, s') := by
  show Descent.bind x f s = _
  rw [Descent.bind, h]

/-- Asks the lexer for the next token. -/
def advance : Descent Unit := fun s =>
  let (outcome, lexer) := s.lexer.next
  let scanned := s.scanned ++ [outcome]
  match outcome with
  | .ok t => (.done (), { s with lexer, scanned, current := t })
  | .error fault => (.failed (.scan fault), { s with lexer, scanned })

/-- Goes on by the kind of the token at hand. -/
def peek (f : Token.Kind → Descent α) : Descent α := fun s => f s.current.kind s

theorem peek_bind (f : Token.Kind → Descent α) (g : α → Descent β) :
    peek f >>= g = peek fun kind => f kind >>= g := rfl

/-- Fails with an error that is not about the token at hand. -/
def reject (e : ParseError) : Descent α := fun s => (.failed e, s)

/-- Fails at the token at hand. -/
def fail (expected : Expectation) : Descent α := fun s =>
  reject (.mismatch expected s.current.kind s.current.span.line (s.current.span.column + 1)) s

/-- Goes no further. -/
def exhaust : Descent α := fun s => (.exhausted, s)

/-- Passes over a token of a kind. -/
def eat (kind : Token.Kind) : Descent Unit :=
  peek fun found => if found = kind then advance else fail (.kind kind)

/-- Passes over a name. -/
def name : Descent String :=
  peek fun
    | .identifier name => do
      advance
      pure name
    | _ => fail .identifier

/-- Records a part of the descent as a round. -/
def round (site : Site) (x : Descent α) : Descent α := fun s =>
  let (outcome, s') := x s
  let asked := s'.scanned.length - s.scanned.length
  (outcome, { s' with rounds := s'.rounds ++ [⟨site, asked, outcome.isDone⟩] })

/-- A loop. The kind of the token at hand tells whether there is another turn. -/
def loop (site : Site) (turn : Token.Kind → β → Option (Descent β)) : Nat → β → Descent β
  | 0, _ => exhaust
  | bound + 1, b => peek fun kind =>
    match turn kind b with
    | none => pure b
    | some x => do
      let b ← round site x
      loop site turn bound b

/-- A loop that collects what its turns yield. -/
def collect (site : Site) (turn : Token.Kind → Option (Descent α)) :
    Nat → List α → Descent (List α) :=
  loop site fun kind items => (turn kind).map fun x => do
    let a ← x
    pure (items ++ [a])

/-- Items with commas between them, up to a closing parenthesis. -/
def commaList (site : Site) (item : Descent α) (bound : Nat) : Descent (List α) :=
  peek fun kind =>
    if kind = .symbol .rightParen then pure []
    else do
      let first ← item
      collect site (fun kind =>
        if kind = .symbol .comma then some do
          advance
          item
        else none) bound [first]

/-! ## Expressions -/

/-- A factor that begins with a token of the given kind. The phrases in it are those of `sub`. -/
def factorFrom (sub : Nat → Descent Expression) (bound : Nat) : Token.Kind → Descent Expression
  | .symbol .leftParen => do
    advance
    let e ← sub 3
    eat (.symbol .rightParen)
    pure e
  | .symbol .minus => do
    advance
    let e ← sub 0
    pure e.negate
  | .integer value => do
    advance
    pure (.number value)
  | .identifier _ => do
    let name ← name
    peek fun kind =>
      if kind = .symbol .leftParen then do
        advance
        let values ← commaList .arguments (sub 2) bound
        eat (.symbol .rightParen)
        pure (.call name values)
      else pure (.variable name)
  | _ => fail .expression

/-- Another operand of a chain. -/
def operandFrom (tier : Nat) (operand : Descent Expression) (kind : Token.Kind)
    (left : Expression) : Option (Descent Expression) :=
  (operator? tier kind).map fun op => do
    advance
    let right ← operand
    pure (.binary left op right)

/-- Phrases of a tier: factors, products, sums and comparisons. -/
def phrase : Nat → Nat → Descent Expression
  | 0, _ => exhaust
  | bound + 1, 0 => round .factor (peek (factorFrom (phrase bound) bound))
  | bound + 1, tier + 1 => do
    let first ← phrase bound tier
    loop (.operands tier) (operandFrom tier (phrase bound tier)) bound first

/-! ## Statements -/

/-- The statements before the first of the stop words. -/
def block (sub : Descent Statement) (bound : Nat) (stops : List Keyword) :
    Descent (List Statement) :=
  collect .block (fun kind =>
    if stops.any fun word => kind = .keyword word then none else some sub) bound []

/-- The statements after `else`, if there is one. -/
def alternative (sub : Descent Statement) (bound : Nat) : Descent (List Statement) :=
  peek fun kind =>
    if kind = .keyword .else then do
      advance
      block sub bound [.end]
    else pure []

/-- A statement that begins with a token of the given kind. Those in it are those of `sub`. -/
def statementFrom (sub : Descent Statement) (bound : Nat) : Token.Kind → Descent Statement
  | .keyword .display => do
    advance
    let e ← phrase bound 3
    pure (.display e)
  | .keyword .begin => do
    advance
    let body ← block sub bound [.end]
    eat (.keyword .end)
    peek fun kind => if kind = .symbol .semicolon then advance else pure ()
    pure (.block body)
  | .keyword .if => do
    advance
    let condition ← phrase bound 3
    peek fun kind => if kind = .keyword .then then advance else eat (.keyword .do)
    let onTrue ← block sub bound [.else, .end]
    let onFalse ← alternative sub bound
    eat (.keyword .end)
    pure (.branch condition onTrue onFalse)
  | .keyword .while => do
    advance
    let condition ← phrase bound 3
    eat (.keyword .do)
    let body ← block sub bound [.end]
    eat (.keyword .end)
    pure (.loop condition body)
  | .keyword .read => do
    advance
    let name ← name
    pure (.read name)
  | .keyword .return => do
    advance
    let e ← phrase bound 2
    pure (.return e)
  | _ => do
    eat (.keyword .assign)
    let name ← name
    eat (.symbol .equal)
    let e ← phrase bound 2
    pure (.assign name e)

def statement : Nat → Descent Statement
  | 0 => exhaust
  | bound + 1 => round .statement (peek (statementFrom (statement bound) bound))

/-! ## Programs -/

def declaration (bound : Nat) : Descent Procedure := do
  eat (.keyword .procedure)
  let name ← name
  eat (.symbol .leftParen)
  let names ← commaList .names Descent.name bound
  eat (.symbol .rightParen)
  let body ← block (statement bound) bound [.end]
  eat (.keyword .end)
  pure ⟨name, names, body⟩

/-- What comes next at the outermost level, behind the declarations and statements so far. -/
def itemFrom (bound : Nat) (kind : Token.Kind) (read : List String × List Statement) :
    Option (Descent (List String × List Statement)) :=
  match kind with
  | .keyword .end | .keyword .endfile | .endOfInput => none
  | .keyword .procedure => some do
    let p ← declaration bound
    if read.1.contains p.name then reject (.duplicateProcedure p.name)
    else pure (read.1 ++ [p.name], read.2 ++ [p.marker])
  | _ => some do
    let s ← statement bound
    pure (read.1, read.2 ++ [s])

/-- The end of a program. A closing word is passed over, the end of input is not. -/
def closing (read : List String × List Statement) : Descent (List Statement) := do
  peek fun kind => if kind = .endOfInput then pure () else advance
  pure read.2

/-- A whole program. -/
def program (bound : Nat) : Descent (List Statement) := do
  let read ← loop .program (itemFrom bound) bound ([], [])
  closing read

/-- How the descent of a text ended, and its record. -/
structure Run where
  outcome : Outcome (List Statement)
  scanned : List (Except LexError Token)
  rounds : List Round := []

end Descent

/-- The descent of a text. It begins with the first token at hand. -/
def parseStepwise (bound : Nat) (source : String) : Descent.Run :=
  let (first, lexer) := (Lexer.ofString source).next
  match first with
  | .error fault => { outcome := .failed (.scan fault), scanned := [first] }
  | .ok current =>
    let (outcome, s) := Descent.program bound { lexer, current, scanned := [first] }
    { outcome, scanned := s.scanned, rounds := s.rounds }

end Parser

end Blockwork
