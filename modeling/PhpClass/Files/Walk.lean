import PhpClass.Files.Disk

/-!
# Finding class files

All files below a directory whose extension is `php`, but none below or at a name that is hidden or
`vendor`. The name of the directory itself does not count. They come in the order of their addresses,
compared name by name and each name by its bytes, whatever the order of the listings.
-/

namespace PhpClass

namespace Files

/-- Whether an entry with this name is looked at. A name that is no text is never taken for a hidden one. -/
def isVisited (name : Text) : Bool :=
  !Text.isUtf8 name || !Text.startsWith (utf8 ".") name && name != utf8 "vendor"

/-- Whether the extension of a file name is `php`. A name that is nothing but an extension has none. -/
def isPhp (name : Text) : Bool :=
  match Text.after? (utf8 ".php").reverse name.reverse with
  | some stem => !stem.isEmpty
  | none => false

/-- The addresses of the class files, in the order of the listings. -/
def listed : Tree → List (List Text)
  | .nil => []
  | .file name _ rest =>
    if isVisited name && isPhp name then [name] :: listed rest else listed rest
  | .dir name inside rest =>
    if isVisited name then (listed inside).map (name :: ·) ++ listed rest else listed rest

/-- The addresses of the class files in their own order. -/
def found (t : Tree) : List (List Text) := (listed t).mergeSort fun a b => (compare a b).isLE

/-- A name below a path. -/
def below (path name : Text) : Text :=
  if path.isEmpty || path.getLast? = some (ascii '/') then path ++ name
  else path ++ ascii '/' :: name

/-- The paths of the class files below the directory that a path leads to. -/
def under (d : Disk) (path : Text) : Except AccessError (List Text) :=
  (d.entries path).map fun t => (found t).map fun address => address.foldl below path

end Files

end PhpClass
