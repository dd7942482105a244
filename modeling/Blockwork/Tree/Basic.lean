/-!
# Syntax trees

A program is a list of statements; statements hold expressions. The trees are what the parser
yields, what execution walks and what the code generator lowers.

* `Operator`, with the `symbol` that messages show.
* `Expression`, `Statement`: the trees.
* `Procedure`: a declared procedure; `Statement.procedure` marks where it was declared.
-/

namespace Blockwork

/-- The operators with two operands. -/
inductive Operator where
  | add | subtract | multiply | divide
  | equal | notEqual | less | lessEqual | greater | greaterEqual
  deriving DecidableEq, Repr

namespace Operator

/-- The sign that messages show. -/
def symbol : Operator → String
  | add => "+"
  | subtract => "-"
  | multiply => "*"
  | divide => "/"
  | equal => "=="
  | notEqual => "<>"
  | less => "<"
  | lessEqual => "<="
  | greater => ">"
  | greaterEqual => ">="

/-- The word that the outline of a tree shows. -/
def name : Operator → String
  | add => "Add"
  | subtract => "Subtract"
  | multiply => "Multiply"
  | divide => "Divide"
  | equal => "Equal"
  | notEqual => "NotEqual"
  | less => "Less"
  | lessEqual => "LessEqual"
  | greater => "Greater"
  | greaterEqual => "GreaterEqual"

end Operator

/-- An expression has a value. -/
inductive Expression where
  | number (value : Int32)
  | variable (name : String)
  | binary (left : Expression) (op : Operator) (right : Expression)
  | call (name : String) (arguments : List Expression)
  deriving Inhabited, Repr

/-- There is no negative sign in the tree: `-e` is `e * -1`. -/
def Expression.negate (e : Expression) : Expression :=
  .binary e .multiply (.number (-1))

/-- A statement has an effect. The marker `procedure` only tells where a procedure was declared. -/
inductive Statement where
  | assign (name : String) (value : Expression)
  | block (body : List Statement)
  | branch (condition : Expression) (onTrue onFalse : List Statement)
  | loop (condition : Expression) (body : List Statement)
  | read (name : String)
  | display (value : Expression)
  | return (value : Expression)
  | procedure (name : String) (parameters : List String) (body : List Statement)
  deriving Inhabited, Repr

/-- A declared procedure. Its result is what its body last assigns to the procedure's own name. -/
structure Procedure where
  name : String
  parameters : List String
  body : List Statement
  deriving Inhabited, Repr

/-- The statement that marks the declaration of a procedure. -/
def Procedure.marker (p : Procedure) : Statement :=
  .procedure p.name p.parameters p.body

end Blockwork
