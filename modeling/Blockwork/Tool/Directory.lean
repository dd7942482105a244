import Blockwork.Console
import Blockwork.Tool.Path

/-!
# Files

* `Files`: what the tool asks of a file system.
* `Directory`: a file system that is a value, the files by their addresses. Subdirectories exist as
  far as there are files in them. Outside the working directory there are the directories above it,
  those that each system has, and the devices.
* `Directory.locate`: where a path leads.
* `Directory.read`, `Directory.create`, `Directory.write`: the operations and their errors.
-/

namespace Blockwork

/-- What the tool asks of a file system: the content of a file, and a sink for the content of a file
that is created or emptied. -/
structure Files where
  read : String → Except IoError ByteArray
  create : String → Except IoError Sink

/-! ## Devices -/

/-- Files that hold nothing. -/
inductive Device where
  /-- Takes everything and is always at its end. -/
  | null
  /-- Has no room for anything. -/
  | full
  /-- The input of the tool itself, and its two outputs. -/
  | input | output | errors
  deriving DecidableEq, Repr

namespace Device

def ofAddress? : Address → Option Device
  | ["/", "dev", "null"] => some null
  | ["/", "dev", "full"] => some full
  | ["/", "dev", "stdin"] => some input
  | ["/", "dev", "stdout"] => some output
  | ["/", "dev", "stderr"] => some errors
  | _ => none

/-- What is written to a file is held back until there are so many bytes of it. -/
def heldBack : Nat := 8192

/-- The sink of a device. The full device lets what is held back in, but fails to take it over. -/
def sink : Device → Sink
  | full => { limit := some heldBack, overflow := .noSpace, flushFault := some .noSpace }
  | _ => {}

end Device

/-! ## Directories -/

/-- Files with their addresses. -/
structure Directory where
  entries : List (Address × ByteArray) := []

namespace Directory

/-- The directory that holds given files. -/
def ofList (files : List (String × ByteArray)) : Directory :=
  ⟨files.map fun (path, content) => (Path.address path, content)⟩

/-- The files in the directory, with their paths. -/
def toList (d : Directory) : List (String × ByteArray) :=
  (d.entries.filter fun entry => entry.1.isInside).map fun (a, content) => (a.path, content)

/-- The content of a file. -/
def content? (d : Directory) (a : Address) : Option ByteArray :=
  d.entries.lookup a

/-- The directories below the root of each system. -/
def systemNames : List String :=
  ["bin", "boot", "dev", "etc", "home", "lib", "media", "mnt", "opt", "proc", "root", "run", "sbin",
    "srv", "sys", "tmp", "usr", "var"]

/-- The directories of each system. -/
def isSystem : Address → Bool
  | ["/"] => true
  | ["/", name] => systemNames.contains name
  | _ => false

/-- Other directories are there if there are files below them. -/
def isDirectory (d : Directory) (a : Address) : Bool :=
  a.isUpward || isSystem a || d.entries.any fun entry => a.isPrefixOf entry.1 && a ≠ entry.1

/-- Where a path leads. -/
inductive Place where
  | directory
  | device (device : Device)
  | file (address : Address) (content : ByteArray)
  /-- There is nothing, but there could be a file. -/
  | missing (address : Address)

/-- What there is at an address. -/
def place (d : Directory) (a : Address) : Place :=
  if d.isDirectory a then .directory
  else
    match d.content? a, Device.ofAddress? a with
    | some content, _ => .file a content
    | none, some device => .device device
    | none, none => .missing a

/-- Follows names, all but the last one of which have to lead to directories. -/
def follow (d : Directory) (a : Address) : List String → Except IoError Place
  | [] => .ok (d.place a)
  | name :: names =>
    match d.place a with
    | .directory =>
      if name.utf8ByteSize > Path.nameLimit then .error .nameTooLong
      else d.follow (a.child name) names
    | .missing _ => .error .notFound
    | .file .. | .device _ => .error .notDirectory

/-- Where some of the names of a path lead. -/
def locateNames (d : Directory) (path : String) (names : List String) : Except IoError Place :=
  if path = "" then .error .notFound
  else if path.utf8ByteSize > Path.limit then .error .nameTooLong
  else d.follow (Path.start path) names

/-- Where a path leads. -/
def locate (d : Directory) (path : String) : Except IoError Place :=
  d.locateNames path (Path.names path)

/-- Where a path leads, but for its last name. -/
def locateParent (d : Directory) (path : String) : Except IoError Place :=
  d.locateNames path (Path.names path).dropLast

/-- The device that a path leads to. -/
def device? (d : Directory) (path : String) : Option Device :=
  match d.locate path with
  | .ok (.device device) => some device
  | _ => none

/-! ## Operations -/

/-- The content of a file. The path of a file does not end in a slash. -/
def read (d : Directory) (input : List UInt8) (path : String) : Except IoError ByteArray := do
  match ← d.locate path with
  | .directory => throw .isDirectory
  | .missing _ => throw .notFound
  | .file _ content => if path.endsWith "/" then throw .notDirectory else return content
  | .device device =>
    if path.endsWith "/" then throw .notDirectory
    else return if device = .input then ⟨input.toArray⟩ else ByteArray.empty

/-- Creates or empties a file. A path that ends in a slash names a directory, even if there is none
yet. -/
def create (d : Directory) (path : String) : Except IoError Sink := do
  if path.endsWith "/" then
    match ← d.locateParent path with
    | .directory => throw .isDirectory
    | .missing _ => throw .notFound
    | .file .. | .device _ => throw .notDirectory
  else
    match ← d.locate path with
    | .directory => throw .isDirectory
    | .device device => return device.sink
    | .file .. | .missing _ => return {}

/-- The files once one of them has a given content. -/
def setEntry (a : Address) (content : ByteArray) :
    List (Address × ByteArray) → List (Address × ByteArray)
  | [] => [(a, content)]
  | entry :: entries =>
    if entry.1 = a then (a, content) :: entries else entry :: setEntry a content entries

/-- Gives a file a content. -/
def write (d : Directory) (path : String) (content : ByteArray) : Directory :=
  match d.locate path with
  | .ok (.file a _) | .ok (.missing a) => ⟨setEntry a content d.entries⟩
  | _ => d

/-- The files as the tool sees them. -/
def files (d : Directory) (input : List UInt8) : Files := ⟨d.read input, d.create⟩

end Directory

end Blockwork
