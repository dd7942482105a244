import Blockwork.Tree.Names
import Blockwork.Assembly.Line

/-!
# Where variables live

The main program keeps its variables under labels in the data section. A procedure has a frame: the
word at `$fp` is the saved frame pointer, and the word above it the return address.

* `sortNames`: a list of names without repetitions and in increasing order; `sortNames_congr` says
  that it depends on which names there are and on nothing else.
* `Procedure.locals`: the names that a procedure assigns to, apart from its own name, its parameters
  and the names that the main program assigns to.
* `Layout`: the location of each name in a routine. In a procedure the result is the first word
  below `$fp`, the locals follow below it, and the arguments are above, the last one nearest. A
  parameter named like the procedure takes the place of the result, and of two parameters with one
  name the later one counts.
-/

namespace Blockwork

/-! ## Sets of names -/

/-- Puts a name into its place in a strictly increasing list. -/
def insertName (name : String) : List String → List String
  | [] => [name]
  | x :: xs =>
    if name < x then name :: x :: xs
    else if name = x then x :: xs
    else x :: insertName name xs

/-- The names of a list, each once and in increasing order. -/
def sortNames (names : List String) : List String :=
  names.foldr insertName []

theorem mem_insertName {name x : String} {xs : List String} :
    x ∈ insertName name xs ↔ x = name ∨ x ∈ xs := by
  fun_induction insertName name xs <;> grind

theorem mem_sortNames {x : String} {names : List String} : x ∈ sortNames names ↔ x ∈ names := by
  induction names with
  | nil => simp [sortNames]
  | cons y ys ih =>
    simp only [sortNames, List.foldr_cons] at ih ⊢
    rw [mem_insertName, ih, List.mem_cons]

theorem insertName_sorted {name : String} {xs : List String} (h : xs.Pairwise (· < ·)) :
    (insertName name xs).Pairwise (· < ·) := by
  fun_induction insertName name xs with
  | case1 => exact List.pairwise_singleton _ name
  | case2 x xs hlt =>
    refine List.pairwise_cons.2 ⟨fun y hy => ?_, h⟩
    rcases List.mem_cons.1 hy with rfl | hy
    · exact hlt
    · exact String.lt_trans hlt (List.rel_of_pairwise_cons h hy)
  | case3 => exact h
  | case4 x xs hlt hne ih =>
    refine List.pairwise_cons.2 ⟨fun y hy => ?_, ih h.of_cons⟩
    rcases mem_insertName.1 hy with rfl | hy
    · exact Decidable.not_not.1 fun hge => hne (String.le_antisymm (String.not_lt.1 hge)
        (String.not_lt.1 hlt))
    · exact List.rel_of_pairwise_cons h hy

/-- The names stand in strictly increasing order. -/
theorem sortNames_sorted (names : List String) : (sortNames names).Pairwise (· < ·) := by
  induction names with
  | nil => exact List.Pairwise.nil
  | cons y ys ih => exact insertName_sorted ih

theorem sortNames_nodup (names : List String) : (sortNames names).Nodup :=
  (sortNames_sorted names).imp String.ne_of_lt

/-- The order and the number of times that names stand in a list do not matter. -/
theorem sortNames_congr {names names' : List String} (h : ∀ x, x ∈ names' ↔ x ∈ names) :
    sortNames names' = sortNames names := by
  refine List.Perm.eq_of_pairwise (fun x y _ _ hxy hyx => absurd hyx (String.lt_asymm hxy))
    (sortNames_sorted names') (sortNames_sorted names) ?_
  rw [List.perm_ext_iff_of_nodup (sortNames_nodup names') (sortNames_nodup names)]
  intro x
  rw [mem_sortNames, mem_sortNames, h]

/-! ## Frames -/

/-- The size of a word in bytes. -/
def wordSize : Nat := 4

/-- The variables that live in a procedure's frame besides its result and its parameters, given the
names that the main program assigns to. -/
def Procedure.locals (p : Procedure) (topLevel : List String) : List String :=
  (sortNames (Statement.listAssigned p.body)).filter fun x =>
    x ≠ p.name && !p.parameters.contains x && !topLevel.contains x

/-- How a routine finds variables. -/
inductive Layout where
  | main
  | frame (p : Procedure) (locals : List String)

namespace Layout

/-- The distance of a procedure's variable from `$fp`, if it has a place in the frame. -/
def offset? (p : Procedure) (locals : List String) (name : String) : Option Int :=
  if locals.contains name then some (-(wordSize * (locals.idxOf name + 2) : Nat))
  else if p.parameters.contains name then
    some (wordSize * (p.parameters.reverse.idxOf name + 2) : Nat)
  else if name = p.name then some (-(wordSize : Nat))
  else none

/-- The location of a variable. -/
def locate : Layout → String → Location
  | main, name => .labelled (.variable name)
  | frame p locals, name =>
    match offset? p locals name with
    | some offset => .relative offset .fp
    | none => .labelled (.variable name)

end Layout

end Blockwork
