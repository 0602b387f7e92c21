import PhpClass.Member.Duplicate
import PhpClass.Scan.Fault
import PhpClass.Text.Position

/-!
# Failures of reading

Reading stops at the first failure. Inside the grammar a failure is placed by the number of bytes left;
with the source at hand it is placed by an offset, a line and a column.
-/

namespace PhpClass

/-- What was looked for and not found. -/
inductive Expected where
  | namespaceDecl
  | namespaceName
  | importName
  | classDecl
  | className
  | parentName
  | interfaceName
  | bodyStart
  | bodyEnd
  | propertyName
  | propertyValue
  | propertyEnd
  | constantName
  | constantEquals
  | constantValue
  | methodName
  | parameterList
  | returnType
  | methodBody
  | traitName
  deriving DecidableEq, Repr

def Expected.text : Expected → Text
  | namespaceDecl => utf8 "`namespace` declaration"
  | namespaceName => utf8 "namespace name"
  | importName => utf8 "import name"
  | classDecl => utf8 "`class` declaration"
  | className => utf8 "class name"
  | parentName => utf8 "parent class name"
  | interfaceName => utf8 "interface name"
  | bodyStart => utf8 "`\x7b` to open class body"
  | bodyEnd => utf8 "`\x7d` to close class body"
  | propertyName => utf8 "property name"
  | propertyValue => utf8 "default value"
  | propertyEnd => utf8 "`;` after property"
  | constantName => utf8 "constant name"
  | constantEquals => utf8 "`=` after constant name"
  | constantValue => utf8 "constant value"
  | methodName => utf8 "method name"
  | parameterList => utf8 "`(` after method name"
  | returnType => utf8 "return type"
  | methodBody => utf8 "method body or `;`"
  | traitName => utf8 "trait name"

/-- What is wrong with a text. -/
inductive Cause where
  | scan (cause : ScanCause)
  | expected (what : Expected)
  | notAMember
  | afterMember
  | traitAdaptation
  | parameter (code : Text)
  deriving DecidableEq, Repr

def Cause.text : Cause → Text
  | scan cause => cause.text
  | expected what => utf8 "expected " ++ what.text
  | notAMember => utf8 "unexpected content in class body"
  | afterMember => utf8 "unexpected content after member"
  | traitAdaptation => utf8 "trait adaptation blocks are not supported"
  | parameter code => utf8 "malformed parameter `" ++ code ++ utf8 "`"

/-- Why reading stopped. -/
inductive Failure where
  | noOpenTag
  | malformed (fault : Fault Cause)
  | duplicate (d : Duplicate)
  deriving DecidableEq, Repr

/-- The result of reading. -/
abbrev Read (α : Type) := Except Failure α

namespace Read

variable {α : Type}

/-- Stops in front of `rest`. -/
def stop (cause : Cause) (rest : Text) : Read α := .error (.malformed ⟨cause, rest.length⟩)

/-- Stops in front of `rest`, where something was expected. -/
def expect (what : Expected) (rest : Text) : Read α := stop (.expected what) rest

/-- The result of scanning a text behind which `more` bytes follow. -/
def ofScan (result : Scan α) (more : Nat := 0) : Read α :=
  result.mapError fun f => .malformed ⟨.scan f.cause, f.left + more⟩

/-- A change that a duplicate name prevents. -/
def ofUnique (result : Except Duplicate α) : Read α := result.mapError .duplicate

theorem ofScan_eq_ok {result : Scan α} {more : Nat} {a : α} :
    ofScan result more = .ok a ↔ result = .ok a := mapError_eq_ok

theorem ofUnique_eq_ok {result : Except Duplicate α} {a : α} :
    ofUnique result = .ok a ↔ result = .ok a := mapError_eq_ok

end Read

/-- Why a source could not be read, and where. -/
inductive ReadError where
  | noOpenTag
  | malformed (cause : Cause) (offset : Nat) (place : Position)
  | duplicate (d : Duplicate)
  deriving DecidableEq, Repr

/-- A failure placed in the source. -/
def Failure.inSource (source : Text) : Failure → ReadError
  | noOpenTag => .noOpenTag
  | malformed fault =>
    let offset := source.length - fault.left
    .malformed fault.cause offset (.locate source offset)
  | duplicate d => .duplicate d

def ReadError.message : ReadError → Text
  | noOpenTag => utf8 "not a class file: missing `<?php` open tag"
  | malformed cause _ place => utf8 "syntax error at " ++ place.text ++ utf8 ": " ++ cause.text
  | duplicate d => d.message

end PhpClass
