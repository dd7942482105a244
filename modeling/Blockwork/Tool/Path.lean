/-!
# Paths

A path is a text, its names are what stands between its slashes, and an `Address` is the place that
it names.

* `Path.names`, `Path.start`: the names of a path, and the address that they start from.
* `Address.child`: the address that a name leads to.
* `Address.path`: the shortest path to an address.
-/

namespace Blockwork

/-- A place in a file system, as the names on the shortest way there from the working directory. An
absolute address starts with a slash. Steps upward come first, and there is none in an absolute
address. -/
abbrev Address := List String

namespace Address

/-- The top of the file system. -/
def root : Address := ["/"]

/-- The working directory and those above it. -/
def isUpward (a : Address) : Bool :=
  a.all (· = "..")

/-- The working directory and all below it. -/
def isInside (a : Address) : Bool :=
  a.head? ≠ some "/" && a.head? ≠ some ".."

/-- The address of a name in a directory. One dot stands for the directory itself, and two dots for
the one above it. -/
def child (a : Address) (name : String) : Address :=
  if name = "." then a
  else if name = ".." && a = root then root
  else if name = ".." && !a.isUpward then a.dropLast
  else a ++ [name]

/-- The shortest path to an address. -/
def path : Address → String
  | "/" :: names => "/" ++ "/".intercalate names
  | names => "/".intercalate names

end Address

namespace Path

/-- The longest name that a directory can hold, in bytes. -/
def nameLimit : Nat := 255

/-- The longest path that can be followed, in bytes. -/
def limit : Nat := 4095

/-- What stands between the slashes of a text. -/
def between : List Char → List (List Char)
  | [] => [[]]
  | c :: cs =>
    if c = '/' then [] :: between cs
    else
      match between cs with
      | [] => [[c]]
      | part :: parts => (c :: part) :: parts

/-- The names in a path. -/
def names (path : String) : List String :=
  ((between path.toList).filter (· ≠ [])).map String.ofList

/-- Where the names of a path start from. -/
def start (path : String) : Address :=
  if path.startsWith "/" then Address.root else []

/-- The address that a path names, whether or not there is something on the way. -/
def address (path : String) : Address :=
  (names path).foldl Address.child (start path)

end Path

end Blockwork
