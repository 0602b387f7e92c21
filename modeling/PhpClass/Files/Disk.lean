import PhpClass.Files.Tree
import PhpClass.Text.Utf8

/-!
# Disks

A disk is a tree of files with a current directory. A path is followed name by name: `.` and empty names
stay where they are, `..` goes up, and every name but the last must lead to a directory, the last one
too if a slash follows it.
-/

namespace PhpClass

/-- Why a file or a directory could not be used. -/
inductive AccessError where
  | missing
  | notADirectory
  | isADirectory
  | notUtf8
  deriving DecidableEq, Repr

/-- The wording of the operating system. -/
def AccessError.text : AccessError → Text
  | missing => utf8 "No such file or directory (os error 2)"
  | notADirectory => utf8 "Not a directory (os error 20)"
  | isADirectory => utf8 "Is a directory (os error 21)"
  | notUtf8 => utf8 "stream did not contain valid UTF-8"

/-- A tree of files and the address of the current directory in it. -/
structure Disk where
  root : Tree
  here : List Text := []
  deriving DecidableEq, Repr

namespace Disk

/-- Where one name of a path leads from an address. -/
def step (d : Disk) (address : List Text) (name : Text) : Except AccessError (List Text) :=
  match d.root.node? address with
  | some (.dir entries) =>
    if name = [] || name = utf8 "." then .ok address
    else if name = utf8 ".." then .ok address.dropLast
    else if (entries.child? name).isSome then .ok (address ++ [name])
    else .error .missing
  | some (.file _) => .error .notADirectory
  | none => .error .missing

/-- Where the names of a path lead from an address. -/
def follow (d : Disk) (address : List Text) : List Text → Except AccessError (List Text)
  | [] => .ok address
  | name :: names => do d.follow (← d.step address name) names

/-- The names of a path. A path that begins with a slash has an empty first name. -/
def names (path : Text) : List Text := path.splitOn (ascii '/')

/-- The address that a path leads to. -/
def resolve (d : Disk) (path : Text) : Except AccessError (List Text) :=
  match path with
  | [] => .error .missing
  | b :: _ => d.follow (if b = ascii '/' then [] else d.here) (names path)

/-- What a path leads to. -/
def node (d : Disk) (path : Text) : Except AccessError Node := do
  match d.root.node? (← d.resolve path) with
  | some node => return node
  | none => throw .missing

/-- Whether a path leads to a directory. -/
def isDir (d : Disk) (path : Text) : Bool :=
  match d.node path with
  | .ok (.dir _) => true
  | _ => false

/-- The entries of the directory that a path leads to. -/
def entries (d : Disk) (path : Text) : Except AccessError Tree := do
  match ← d.node path with
  | .dir entries => return entries
  | .file _ => throw .notADirectory

/-- The text of the file that a path leads to. -/
def read (d : Disk) (path : Text) : Except AccessError Text := do
  match ← d.node path with
  | .file content => if Text.isUtf8 content then return content else throw .notUtf8
  | .dir _ => throw .isADirectory

/-- The disk with a new content of the file that a path leads to. -/
def write (d : Disk) (path content : Text) : Disk :=
  match d.resolve path with
  | .ok address => { d with root := d.root.overwrite content address }
  | .error _ => d

end Disk

end PhpClass
