import PhpClass.Member.Content

/-!
# Class files

A class file declares a namespace, imports and one class.
-/

namespace PhpClass

/-- Whether a class can be derived from and instantiated. The two modifiers exclude each other. -/
inductive ClassKind where
  | normal
  | final
  | abstract
  deriving DecidableEq, Repr

/-- The modifier, if there is one. -/
def ClassKind.keyword? : ClassKind → Option Text
  | normal => none
  | final => some (utf8 "final")
  | abstract => some (utf8 "abstract")

/-- The name of a class and its modifier. -/
structure ClassSignature where
  name : Text
  kind : ClassKind := .normal
  deriving DecidableEq, Repr

namespace ClassSignature

def isFinal (s : ClassSignature) : Bool := s.kind == .final

def isAbstract (s : ClassSignature) : Bool := s.kind == .abstract

/-- Makes the class final, or takes that back if it is. -/
def setFinal (s : ClassSignature) (value : Bool) : ClassSignature :=
  if value then { s with kind := .final } else if s.isFinal then { s with kind := .normal } else s

/-- Makes the class abstract, or takes that back if it is. -/
def setAbstract (s : ClassSignature) (value : Bool) : ClassSignature :=
  if value then { s with kind := .abstract }
  else if s.isAbstract then { s with kind := .normal }
  else s

end ClassSignature

/-- A class file. -/
structure ClassFile where
  /-- The text that the file was read from, which nothing else depends on. -/
  source : Text := []
  namespaceName : Element Text
  imports : List (Element Text) := []
  signature : Element ClassSignature
  /-- The class that is extended. -/
  parent : Option (Element Text) := none
  interfaces : List Text := []
  content : ClassContent := {}
  deriving DecidableEq

namespace ClassFile

/-- A file with an empty class. -/
def new (namespaceName name : Text) : ClassFile where
  namespaceName := ⟨namespaceName, none, none⟩
  signature := ⟨⟨name, .normal⟩, none, none⟩

def className (f : ClassFile) : Text := f.signature.payload.name

/-- The text without backslashes around it. -/
def trimBackslashes (t : Text) : Text :=
  ((t.dropWhile (· == Byte.backslash)).reverse.dropWhile (· == Byte.backslash)).reverse

/-- The class name behind its namespace. -/
def qualifiedName (f : ClassFile) : Text :=
  let space := trimBackslashes f.namespaceName.payload
  if space.isEmpty then f.className else space ++ Byte.backslash :: f.className

/-- The name of the class that is extended. -/
def parentName? (f : ClassFile) : Option Text := f.parent.map Element.payload

/-- Extends a class, without comments, or none. -/
def setParent (f : ClassFile) (parent : Option Text) : ClassFile :=
  { f with parent := parent.map fun name => ⟨name, none, none⟩ }

/-- Appends an import. -/
def addImport (f : ClassFile) (i : Element Text) : ClassFile := { f with imports := f.imports ++ [i] }

def hasImport (f : ClassFile) (name : Text) : Bool := f.imports.any fun i => i.payload == name

def implementsInterface (f : ClassFile) (name : Text) : Bool := f.interfaces.contains name

end ClassFile

end PhpClass
