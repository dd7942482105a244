import Blockwork.Tree.Basic

/-!
# Names in a tree

Two walks over statements, each from left to right. The lists may repeat a name. Both pass over the
markers of procedures.

* `assigned`: the targets of assignments and reads.
* `referenced`: those, and the variables in expressions. The name of a called procedure is none.
-/

namespace Blockwork

mutual

/-- The variables in an expression. -/
def Expression.variables : Expression → List String
  | .number _ => []
  | .variable name => [name]
  | .binary left _ right => left.variables ++ right.variables
  | .call _ arguments => Expression.listVariables arguments

/-- The variables in a list of expressions. -/
def Expression.listVariables : List Expression → List String
  | [] => []
  | e :: es => e.variables ++ Expression.listVariables es

end

mutual

/-- The names that a statement can assign to. -/
def Statement.assigned : Statement → List String
  | .assign name _ | .read name => [name]
  | .block body | .loop _ body => Statement.listAssigned body
  | .branch _ onTrue onFalse => Statement.listAssigned onTrue ++ Statement.listAssigned onFalse
  | .display _ | .return _ | .procedure .. => []

/-- The names that a list of statements can assign to. -/
def Statement.listAssigned : List Statement → List String
  | [] => []
  | s :: ss => s.assigned ++ Statement.listAssigned ss

end

mutual

/-- The names that a statement assigns to or uses. -/
def Statement.referenced : Statement → List String
  | .assign name value => name :: value.variables
  | .read name => [name]
  | .block body => Statement.listReferenced body
  | .branch condition onTrue onFalse =>
    condition.variables ++ Statement.listReferenced onTrue ++ Statement.listReferenced onFalse
  | .loop condition body => condition.variables ++ Statement.listReferenced body
  | .display value | .return value => value.variables
  | .procedure .. => []

/-- The names that a list of statements assigns to or uses. -/
def Statement.listReferenced : List Statement → List String
  | [] => []
  | s :: ss => s.referenced ++ Statement.listReferenced ss

end

/-- The procedure that a statement marks. -/
def Statement.procedure? : Statement → Option Procedure
  | .procedure name parameters body => some ⟨name, parameters, body⟩
  | _ => none

theorem Procedure.procedure?_marker (p : Procedure) : p.marker.procedure? = some p := rfl

end Blockwork
