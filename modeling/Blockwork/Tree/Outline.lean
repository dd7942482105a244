import Blockwork.Tree.Basic
import Blockwork.Text.Decimal

/-!
# Outlines

An outline shows a tree with one part to a line. The parts of a group stand between its opening and
its closing line, four columns further right, each followed by a comma.

* `Outline`: the lines of a tree before they are laid out; `Outline.render` lays them out.
* `Expression.outline`, `Statement.outline`: the parts of each form of tree and their labels.
* `outlineText`: the outline of a whole program.
-/

namespace Blockwork

/-- A line, or parts between an opening and a closing line. A part may have a label in front. -/
inductive Outline where
  | line (text : String)
  | group (opening : String) (parts : List (String × Outline)) (closing : String)

namespace Outline

/-- The blanks before the parts of a group. -/
def margin (column : Nat) : String :=
  String.ofList (List.replicate column ' ')

mutual

/-- The text of an outline whose first line starts in a given column. -/
def render (column : Nat) : Outline → String
  | line text => text
  | group opening parts closing =>
    opening ++ "\n" ++ renderParts (column + 4) parts ++ margin column ++ closing

/-- The text of the parts of a group, with a line break after each. -/
def renderParts (column : Nat) : List (String × Outline) → String
  | [] => ""
  | (label, part) :: parts =>
    margin column ++ label ++ part.render column ++ ",\n" ++ renderParts column parts

end

/-! ## The groups of a tree -/

/-- Parts with names, between braces. -/
def record (title : String) (fields : List (String × Outline)) : Outline :=
  group (title ++ " \x7b") (fields.map fun field => (field.1 ++ ": ", field.2)) "\x7d"

/-- One part without a name, in parentheses. -/
def wrapped (title : String) (part : Outline) : Outline :=
  group (title ++ "(") [("", part)] ")"

/-- Parts in square brackets, which share a line when there is nothing between them. -/
def list (parts : List Outline) : Outline :=
  if parts.isEmpty then line "[]" else group "[" (parts.map fun part => ("", part)) "]"

/-- A name in quotes. Names are made of letters, digits and underscores. -/
def quoted (name : String) : Outline :=
  line ("\"" ++ name ++ "\"")

/-- The statements of a block. -/
def compound (statements : List Outline) : Outline :=
  record "Block" [("statements", list statements)]

end Outline

/-! ## Outlines of trees -/

section

open Outline

mutual

/-- The outline of an expression. -/
def Expression.outline : Expression → Outline
  | .number value => wrapped "Number" (line (String.ofList (decimal value.toInt)))
  | .variable name => wrapped "Variable" (quoted name)
  | .binary left op right =>
    record "BinOp" [("left", left.outline), ("op", line op.name), ("right", right.outline)]
  | .call name arguments =>
    record "ProcedureCall" [("name", quoted name), ("args", list (Expression.outlines arguments))]

/-- The outlines of expressions. -/
def Expression.outlines : List Expression → List Outline
  | [] => []
  | e :: es => e.outline :: Expression.outlines es

end

mutual

/-- The outline of a statement. -/
def Statement.outline : Statement → Outline
  | .assign name value => record "Assignment" [("name", quoted name), ("value", value.outline)]
  | .block body => wrapped "Block" (compound (Statement.outlines body))
  | .branch condition onTrue onFalse =>
    record "If" [("condition", condition.outline),
      ("then_block", compound (Statement.outlines onTrue)),
      ("else_block", compound (Statement.outlines onFalse))]
  | .loop condition body =>
    record "WhileLoop" [("condition", condition.outline),
      ("body", compound (Statement.outlines body))]
  | .read name => wrapped "Read" (quoted name)
  | .display value => wrapped "Writeln" value.outline
  | .return value => wrapped "Return" value.outline
  | .procedure name parameters body =>
    wrapped "ProcedureDeclaration" (record "ProcedureDeclaration"
      [("name", quoted name), ("params", list (parameters.map quoted)),
        ("body", compound (Statement.outlines body))])

/-- The outlines of statements. -/
def Statement.outlines : List Statement → List Outline
  | [] => []
  | s :: ss => s.outline :: Statement.outlines ss

end

end

/-- The outline of a program. -/
def outlineText (statements : List Statement) : String :=
  (Outline.compound (Statement.outlines statements)).render 0

end Blockwork
