import Mathlib.Data.List.Basic
import Blockwork.Assembly.Layout
import Blockwork.Proofs.Scoping

/-!
# Places in a frame

A procedure's variables have places at fixed distances from `$fp`, and a new frame gives values to
the procedure's name and its parameters.

* `Procedure.of_mem_locals`: which names a local differs from.
* `Layout.offset?_eq_none_iff`: the names without a place.
* `Layout.offset?_injective`: different names have different places.
* `Layout.offset?_range`: the places lie below the two saved words or above them.
* `Environment.binds_newFrame`: the names that a call starts with.
* `Environment.newFrame_slot`: the place of each value that a call starts with: a result of zero
  is below `$fp`, and the arguments are above the saved words, the last one nearest.
-/

namespace Blockwork

/-- A local is no other name of the procedure, and no name of the main program. -/
theorem Procedure.of_mem_locals {q : Procedure} {topLevel : List String} {x : String}
    (h : x ∈ q.locals topLevel) : x ≠ q.name ∧ x ∉ q.parameters ∧ x ∉ topLevel := by
  simp only [Procedure.locals, List.mem_filter, Bool.and_eq_true, decide_eq_true_eq,
    Bool.not_eq_true', List.contains_eq_mem, decide_eq_false_iff_not, and_assoc] at h
  exact h.2

/-! ## Distances -/

namespace Layout

variable {p : Procedure} {locals : List String}

theorem offset?_eq_none_iff {x : String} :
    offset? p locals x = none ↔ x ∉ locals ∧ x ∉ p.parameters ∧ x ≠ p.name := by
  unfold offset?
  split
  · simp_all
  · split
    · simp_all
    · split <;> simp_all

/-- The three kinds of places: locals, arguments and the result. -/
theorem offset?_cases {x : String} {o : Int} (h : offset? p locals x = some o) :
    (x ∈ locals ∧ o = -4 * (locals.idxOf x + 2 : Nat)) ∨
    (x ∈ p.parameters ∧ o = 4 * (p.parameters.reverse.idxOf x + 2 : Nat)) ∨
    (x = p.name ∧ o = -4) := by
  unfold offset? at h
  split at h
  next hx =>
    cases h
    exact .inl ⟨by simpa using hx, by simp only [wordSize]; omega⟩
  next hx =>
    split at h
    next hp =>
      cases h
      exact .inr (.inl ⟨by simpa using hp, by simp [wordSize]⟩)
    next hp =>
      split at h
      next hn => cases h; exact .inr (.inr ⟨hn, rfl⟩)
      next => cases h

theorem offset?_injective {x y : String} {o : Int} (hx : offset? p locals x = some o)
    (hy : offset? p locals y = some o) : x = y := by
  rcases offset?_cases hx with ⟨mx, ex⟩ | ⟨mx, ex⟩ | ⟨mx, ex⟩ <;>
    rcases offset?_cases hy with ⟨my, ey⟩ | ⟨my, ey⟩ | ⟨my, ey⟩ <;> try omega
  · exact (List.idxOf_inj mx).1 (by omega)
  · exact (List.idxOf_inj (List.mem_reverse.2 mx)).1 (by omega)
  · rw [mx, my]

theorem offset?_range {x : String} {o : Int} (h : offset? p locals x = some o) :
    4 ∣ o ∧ (-4 * (locals.length + 1) ≤ o ∧ o ≤ -4 ∨
      8 ≤ o ∧ o ≤ 4 * (p.parameters.length + 1)) := by
  rcases offset?_cases h with ⟨mx, rfl⟩ | ⟨mx, rfl⟩ | ⟨-, rfl⟩
  · have := List.idxOf_lt_length_of_mem mx
    exact ⟨by omega, .inl (by omega)⟩
  · have := List.idxOf_lt_length_of_mem (List.mem_reverse.2 mx)
    rw [List.length_reverse] at this
    exact ⟨by omega, .inr (by omega)⟩
  · exact ⟨by omega, .inl (by omega)⟩

end Layout

/-! ## New frames -/

private theorem lookup_single (x y : String) (v : Value) :
    [(y, v)].lookup x = if x = y then some v else none := by
  by_cases h : x = y
  · simp [h]
  · have : (x == y) = false := by simpa using h
    simp [List.lookup_cons, this, h]

theorem Bindings.get?_setAll (b : Bindings) (entries : List (String × Value)) (x : String) :
    (b.setAll entries).get? x = (entries.reverse.lookup x).or (b.get? x) := by
  induction entries generalizing b with
  | nil => simp [setAll]
  | cons entry entries ih =>
    have hs : b.setAll (entry :: entries) = (b.set entry.1 entry.2).setAll entries := rfl
    rw [hs, ih, get?_set, List.reverse_cons, List.lookup_append, Option.or_assoc,
      lookup_single x entry.1 entry.2]
    by_cases h : x = entry.1 <;> simp [h]

namespace Environment

/-- In two lists side by side, a name stands for the value at its place. -/
private theorem lookup_zip {xs : List String} {vs : List Value} (h : xs.length = vs.length)
    (x : String) : (xs.zip vs).lookup x = if x ∈ xs then vs[xs.idxOf x]? else none := by
  induction xs generalizing vs with
  | nil => simp
  | cons y ys ih =>
    cases vs with
    | nil => simp at h
    | cons v vs =>
      rw [List.zip_cons_cons, List.lookup_cons, ih (by simpa using h)]
      by_cases hx : x = y
      · simp [hx]
      · have hxy : (x == y) = false := by simpa using hx
        have hyx : (y == x) = false := by simpa using Ne.symm hx
        simp [hx, List.idxOf_cons, hxy, hyx]

theorem get?_newFrame {p : Procedure} {values : List Value}
    (h : p.parameters.length = values.length) (x : String) :
    (newFrame p values).bindings.get? x =
      if x ∈ p.parameters then values.reverse[p.parameters.reverse.idxOf x]?
      else if x = p.name then some (.integer 0) else none := by
  have hz : (p.parameters.zip values).reverse = p.parameters.reverse.zip values.reverse :=
    List.reverse_zipWith h
  have h0 : Bindings.get? ⟨[(p.name, .integer 0)]⟩ x =
      if x = p.name then some (.integer 0) else none := lookup_single x p.name _
  simp only [newFrame]
  rw [Bindings.get?_setAll, hz, lookup_zip (by simpa using h), h0]
  by_cases hx : x ∈ p.parameters
  · have hlt : p.parameters.reverse.idxOf x < values.reverse.length := by
      have := List.idxOf_lt_length_of_mem (List.mem_reverse.2 hx)
      simpa [h] using this
    simp [hx, List.getElem?_eq_getElem hlt]
  · simp [hx]

theorem binds_newFrame {p : Procedure} {values : List Value}
    (h : p.parameters.length = values.length) (x : String) :
    (newFrame p values).bindings.binds x = true ↔ x = p.name ∨ x ∈ p.parameters := by
  rw [Bindings.binds, get?_newFrame h]
  by_cases hx : x ∈ p.parameters
  · have hlt : p.parameters.reverse.idxOf x < values.reverse.length := by
      have := List.idxOf_lt_length_of_mem (List.mem_reverse.2 hx)
      simpa [h] using this
    simp [hx, List.getElem?_eq_getElem hlt]
  · simp only [hx, if_false, or_false]
    split <;> simp_all

theorem newFrame_slot {p : Procedure} {values : List Value} {locals : List String}
    (h : p.parameters.length = values.length)
    (hl : ∀ x ∈ locals, x ≠ p.name ∧ x ∉ p.parameters) {x : String} {v : Value}
    (hx : (newFrame p values).bindings.get? x = some v) :
    (Layout.offset? p locals x = some (-4) ∧ v = .integer 0) ∨
    ∃ j : Nat, values.reverse[j]? = some v ∧
      Layout.offset? p locals x = some (4 * (j + 2) : Int) := by
  rw [get?_newFrame h] at hx
  unfold Layout.offset?
  split at hx
  next hp =>
    have hxl : x ∉ locals := fun hm => (hl x hm).2 hp
    exact .inr ⟨_, hx, by simp [hxl, hp, wordSize]⟩
  next hp =>
    split at hx
    next hn =>
      have hxl : x ∉ locals := fun hm => (hl x hm).1 hn
      cases hx
      left
      subst hn
      simp [hxl, hp, wordSize]
    next => cases hx

end Environment

end Blockwork
