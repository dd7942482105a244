import Blockwork.Program
import Blockwork.Assembly.Code
import Blockwork.Assembly.Layout

/-!
# Code generation

The value of an expression ends up in `$v0`. Operands and arguments wait on the stack, and a callee
finds its arguments above its frame. A condition holds if its word is one, so booleans, which are
the words zero and one, need no test of their own.

* `Operator.instructions`: the lines for an operator with its operands in `$t0` and `$v0`.
* `Expression.code`, `Statement.code`: the code of trees within a `Scope`. `Statement.labels` tells
  how many labels a statement mints, which fixes the numbers of those that come after it.
* `Procedure.code`: the routine of a procedure.
* `Program.code`: the data section, the main program, the routines and the division guard.
-/

namespace Blockwork

open Code

/-- What the code of a routine depends on. -/
structure Scope where
  environment : Environment
  layout : Layout := .main

/-! ## Expressions -/

/-- Puts the value of the last expression on the stack. -/
def push : Code :=
  ofInstructions [.reserve wordSize, .store .v0 (.relative 0 .sp)]

/-- Takes the left operand from the stack. -/
def pop : Code :=
  ofInstructions [.load .t0 (.relative 0 .sp), .release wordSize]

/-- The lines for an operator. A divisor of zero goes to the guard. -/
def Operator.instructions : Operator → List Instruction
  | add => [.arithmetic .addu .v0 .t0 .v0]
  | subtract => [.arithmetic .subu .v0 .t0 .v0]
  | multiply => [.arithmetic .mul .v0 .t0 .v0]
  | divide => [.branchEqual .v0 .zero .divisionGuard, .divide .t0 .v0, .quotient .v0]
  | equal => [.arithmetic .seq .v0 .t0 .v0]
  | notEqual => [.arithmetic .sne .v0 .t0 .v0]
  | less => [.arithmetic .slt .v0 .t0 .v0]
  | lessEqual => [.arithmetic .sle .v0 .t0 .v0]
  | greater => [.arithmetic .sgt .v0 .t0 .v0]
  | greaterEqual => [.arithmetic .sge .v0 .t0 .v0]

/-- A call needs a declared procedure with as many parameters as there are arguments. -/
def Scope.checkCall (scope : Scope) (name : String) (count : Nat) : Code :=
  match scope.environment.getProcedure name with
  | .error _ => blocked (.undefinedProcedure name)
  | .ok p =>
    if p.parameters.length = count then empty
    else blocked (.arityMismatch name p.parameters.length count)

mutual

/-- The lines that compute an expression. -/
def Expression.code (scope : Scope) : Expression → Code
  | .number value => ofInstructions [.loadImmediate .v0 value.toInt]
  | .variable name => ofInstructions [.load .v0 (scope.layout.locate name)]
  | .binary left op right =>
    left.code scope ++ push ++ right.code scope ++ pop ++ ofInstructions op.instructions
  | .call name arguments =>
    scope.checkCall name arguments.length ++ Expression.argumentCode scope arguments ++
      ofInstructions [.jumpAndLink (.procedure name)] ++
      if arguments.isEmpty then empty
      else ofInstructions [.release (wordSize * arguments.length)]

/-- The lines that put arguments on the stack, the first one deepest. -/
def Expression.argumentCode (scope : Scope) : List Expression → Code
  | [] => empty
  | e :: es => e.code scope ++ push ++ Expression.argumentCode scope es

end

/-! ## Statements -/

mutual

/-- The number of labels that a statement mints. -/
def Statement.labels : Statement → Nat
  | .block body => Statement.listLabels body
  | .branch _ onTrue onFalse =>
    Statement.listLabels onTrue + Statement.listLabels onFalse + if onFalse.isEmpty then 1 else 2
  | .loop _ body => Statement.listLabels body + 2
  | .assign .. | .read _ | .display _ | .return _ | .procedure .. => 0

/-- The number of labels that statements mint. -/
def Statement.listLabels : List Statement → Nat
  | [] => 0
  | s :: ss => s.labels + Statement.listLabels ss

end

/-- The lines that go to a label unless a condition holds. -/
def branchUnless (scope : Scope) (condition : Expression) (target : Nat) : Code :=
  condition.code scope ++
    ofInstructions [.loadImmediate .t0 1, .branchNotEqual .v0 .t0 (.local target)]

/-- The lines that print the value of the last expression and a newline. -/
def print : Code :=
  ofInstructions [.move .a0 .v0, .loadImmediate .v0 1, .systemCall,
    .loadAddress .a0 .newline, .loadImmediate .v0 4, .systemCall]

mutual

/-- The lines for a statement whose first label has a given number. -/
def Statement.code (scope : Scope) (first : Nat) : Statement → Code
  | .assign name value =>
    value.code scope ++ ofInstructions [.store .v0 (scope.layout.locate name)]
  | .block body => Statement.listCode scope first body
  | .branch condition onTrue onFalse =>
    let last := first + 1 + Statement.listLabels onTrue
    mint ++ branchUnless scope condition first ++ Statement.listCode scope (first + 1) onTrue ++
      if onFalse.isEmpty then define first
      else
        mint ++ ofInstructions [.jump (.local last)] ++ define first ++
          Statement.listCode scope (last + 1) onFalse ++ define last
  | .loop condition body =>
    mint ++ mint ++ define first ++ branchUnless scope condition (first + 1) ++
      Statement.listCode scope (first + 2) body ++ ofInstructions [.jump (.local first)] ++
      define (first + 1)
  | .read _ => blocked .read
  | .display value => value.code scope ++ print
  | .return value => value.code scope
  | .procedure .. => empty

/-- The lines for statements, the labels of each numbered on from those before it. -/
def Statement.listCode (scope : Scope) (first : Nat) : List Statement → Code
  | [] => empty
  | s :: ss => s.code scope first ++ Statement.listCode scope (first + s.labels) ss

end

/-! ## Programs -/

/-- The distance of the `n`th word below `$fp`, counted from zero. -/
def slot (n : Nat) : Location :=
  .relative (-(wordSize * (n + 1) : Nat)) .fp

/-- The routine of a procedure. On entry it saves `$ra` and `$fp` and clears its result and its
locals; at the end it loads the result and gives back its frame. -/
def Procedure.code (environment : Environment) (topLevel : List String) (first : Nat)
    (p : Procedure) : Code :=
  let locals := p.locals topLevel
  let scope : Scope := ⟨environment, .frame p locals⟩
  ofLines [.define (.procedure p.name)] ++
    ofInstructions [.reserve (2 * wordSize), .store .ra (.relative wordSize .sp),
      .store .fp (.relative 0 .sp), .move .fp .sp, .reserve (wordSize * (locals.length + 1))] ++
    ofInstructions ((List.range (locals.length + 1)).map fun n => .store .zero (slot n)) ++
    Statement.listCode scope first p.body ++
    ofInstructions [.load .v0 (scope.layout.locate p.name), .move .sp .fp,
      .load .fp (.relative 0 .sp), .load .ra (.relative wordSize .sp), .release (2 * wordSize),
      .jumpRegister .ra]

/-- The routines of procedures, the labels of each numbered on from those before it. -/
def routines (environment : Environment) (topLevel : List String) (first : Nat) :
    List Procedure → Code
  | [] => empty
  | p :: ps =>
    p.code environment topLevel first ++
      routines environment topLevel (first + Statement.listLabels p.body) ps

namespace Program

/-- The names that the main program assigns to. -/
def topLevelNames (p : Program) : List String :=
  Statement.listAssigned p.tree

/-- The names that a procedure uses and that have no place in its frame. -/
def outerNames (p : Program) (q : Procedure) : List String :=
  let locals := q.locals p.topLevelNames
  (Statement.listReferenced q.body).filter fun x =>
    x ≠ q.name && !q.parameters.contains x && !locals.contains x

/-- The names with a word in the data section: the declared variables, unless a procedure keeps a
variable of that name in its frame, and all names that the code refers to by their labels. -/
def globalNames (p : Program) : List String :=
  let procedures := p.environment.procedures
  let framed := procedures.flatMap fun q => q.locals p.topLevelNames
  sortNames ((p.environment.declared.filter fun x => !framed.contains x) ++
    Statement.listReferenced p.tree ++ procedures.flatMap p.outerNames)

/-- The data section. -/
def dataLines (p : Program) : List Line :=
  [.dataSection, .string .newline "\n", .string .divisionMessage "Division by zero\n"] ++
    p.globalNames.map fun x => .word (.variable x) 0

/-- The whole code of a program whose first label has a given number. -/
def code (p : Program) (first : Nat) : Code :=
  ofLines (p.dataLines ++ [.textSection, .global .main, .define .main]) ++
    Statement.listCode ⟨p.environment, .main⟩ first p.tree ++
    ofInstructions [.loadImmediate .v0 10, .systemCall] ++
    routines p.environment p.topLevelNames (first + Statement.listLabels p.tree)
      p.environment.procedures ++
    ofLines [.define .divisionGuard] ++
    ofInstructions [.loadAddress .a0 .divisionMessage, .loadImmediate .v0 4, .systemCall,
      .loadImmediate .a0 1, .loadImmediate .v0 17, .systemCall]

end Program

end Blockwork
