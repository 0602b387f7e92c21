import PhpClass.Text.Basic

/-!
# Trees of files

A directory is the list of its entries in the order in which they are listed, each a file with its
content or a directory again. An address is the list of names that leads from a directory to something
below it.
-/

namespace PhpClass

/-- The entries of a directory. -/
inductive Tree where
  | nil
  | file (name content : Text) (rest : Tree)
  | dir (name : Text) (inside rest : Tree)
  deriving DecidableEq, Repr

/-- What an entry is. -/
inductive Node where
  | file (content : Text)
  | dir (entries : Tree)
  deriving DecidableEq, Repr

namespace Tree

/-- The entry with a name. -/
def child? (name : Text) : Tree → Option Node
  | nil => none
  | file n content rest => if n = name then some (.file content) else rest.child? name
  | dir n inside rest => if n = name then some (.dir inside) else rest.child? name

/-- What is at an address. -/
def node? (t : Tree) : List Text → Option Node
  | [] => some (.dir t)
  | name :: names =>
    match t.child? name with
    | some (.dir inside) => inside.node? names
    | some (.file content) => if names = [] then some (.file content) else none
    | none => none

/-- Replaces the content of the file at an address, if there is one. -/
def overwrite (content : Text) : List Text → Tree → Tree
  | _, nil => nil
  | address, file n old rest =>
    if address = [n] then file n content rest else file n old (rest.overwrite content address)
  | [], t => t
  | name :: names, dir n inside rest =>
    if n = name then dir n (inside.overwrite content names) rest
    else dir n inside (rest.overwrite content (name :: names))

/-- Replaces an entry, or appends it if there is none with its name. -/
def setEntry (name : Text) (node : Node) : Tree → Tree
  | nil =>
    match node with
    | .file content => file name content nil
    | .dir inside => dir name inside nil
  | file n content rest =>
    if n = name then
      match node with
      | .file content => file name content rest
      | .dir inside => dir name inside rest
    else file n content (rest.setEntry name node)
  | dir n inside rest =>
    if n = name then
      match node with
      | .file content => file name content rest
      | .dir inside => dir name inside rest
    else dir n inside (rest.setEntry name node)

/-- The entries of the directory with a name, none if there is no such directory. -/
def inside (name : Text) (t : Tree) : Tree :=
  match t.child? name with
  | some (.dir entries) => entries
  | _ => nil

/-- Puts a file at an address, with the directories that lead there. -/
def putFile (content : Text) : List Text → Tree → Tree
  | [], t => t
  | [name], t => t.setEntry name (.file content)
  | name :: names, t => t.setEntry name (.dir ((t.inside name).putFile content names))

/-- Makes the directories of an address. -/
def putDir : List Text → Tree → Tree
  | [], t => t
  | name :: names, t => t.setEntry name (.dir ((t.inside name).putDir names))

/-- The files with their addresses. -/
def files : Tree → List (List Text × Text)
  | nil => []
  | file name content rest => ([name], content) :: rest.files
  | dir name inside rest => inside.files.map (fun f => (name :: f.1, f.2)) ++ rest.files

end Tree

end PhpClass
