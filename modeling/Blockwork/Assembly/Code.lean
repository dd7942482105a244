import Blockwork.Error
import Blockwork.Assembly.Line

/-!
# Pieces of code

The code of a part of a program is a piece: lines, the points between them at which labels are
minted, and, if there is no code for the part, the obstacle at which the piece ends.

* `Code`: the pieces; `a ++ b` is `a` followed by `b`, unless `a` ends at an obstacle.
* `Code.append_assoc`, `Code.empty_append`, `Code.append_empty`: pieces form a monoid.
* `Code.lines`, `Code.labelCount`: what a piece writes and how many labels it mints; both add up.
-/

namespace Blockwork

/-- A step of a piece. -/
inductive Code.Item where
  /-- A label for a place in the code is minted: its number is the next one. -/
  | mint
  | line (line : Line)
  deriving DecidableEq, Repr

/-- The code of a part of a program. -/
structure Code where
  items : List Code.Item := []
  obstacle : Option Obstacle := none
  deriving DecidableEq, Repr

namespace Code

/-- One piece after another. Nothing follows an obstacle. -/
protected def append (a b : Code) : Code :=
  match a.obstacle with
  | none => ⟨a.items ++ b.items, b.obstacle⟩
  | some _ => a

instance : Append Code := ⟨Code.append⟩

/-- No code. -/
def empty : Code := {}

/-- Lines without labels minted between them. -/
def ofLines (lines : List Line) : Code := ⟨lines.map .line, none⟩

def ofInstructions (instructions : List Instruction) : Code :=
  ofLines (instructions.map .instruction)

/-- A label is minted. -/
def mint : Code := ⟨[.mint], none⟩

/-- The label with a number is defined. -/
def define (number : Nat) : Code := ofLines [.define (.local number)]

/-- Nothing but an obstacle. -/
def blocked (obstacle : Obstacle) : Code := ⟨[], some obstacle⟩

theorem append_def (a b : Code) :
    a ++ b = match a.obstacle with
      | none => ⟨a.items ++ b.items, b.obstacle⟩
      | some _ => a := rfl

theorem empty_append (a : Code) : empty ++ a = a := by
  simp [append_def, empty]

theorem append_empty (a : Code) : a ++ empty = a := by
  obtain ⟨items, obstacle⟩ := a
  cases obstacle <;> simp [append_def, empty]

theorem append_assoc (a b c : Code) : a ++ b ++ c = a ++ (b ++ c) := by
  obtain ⟨_, oa⟩ := a
  obtain ⟨_, ob⟩ := b
  cases oa <;> cases ob <;> simp [append_def]

/-- The lines of a piece. -/
def lines (c : Code) : List Line :=
  c.items.filterMap fun
    | .mint => none
    | .line l => some l

/-- The number of labels that a piece mints. -/
def labelCount (c : Code) : Nat :=
  c.items.count .mint

theorem lines_append {a : Code} (h : a.obstacle = none) (b : Code) :
    (a ++ b).lines = a.lines ++ b.lines := by
  simp [append_def, h, lines]

theorem labelCount_append {a : Code} (h : a.obstacle = none) (b : Code) :
    (a ++ b).labelCount = a.labelCount + b.labelCount := by
  simp [append_def, h, labelCount]

end Code

end Blockwork
