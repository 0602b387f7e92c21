import PhpClass.Text.Basic

/-!
# Duplicates

The members of a class are of four kinds. Two members of one kind must not share a name, nor must two
parameters of one method.
-/

namespace PhpClass

/-- The kinds of class members. -/
inductive MemberKind where
  | constant
  | property
  | method
  | traitUse
  deriving DecidableEq, Repr

/-- The name of the kind. -/
def MemberKind.text : MemberKind → Text
  | constant => utf8 "constant"
  | property => utf8 "property"
  | method => utf8 "method"
  | traitUse => utf8 "trait use"

/-- A name that is taken. -/
inductive Duplicate where
  | member (kind : MemberKind) (name : Text)
  | parameter (method name : Text)
  deriving DecidableEq, Repr

def Duplicate.message : Duplicate → Text
  | member kind name => utf8 "duplicate " ++ kind.text ++ utf8 " `" ++ name ++ utf8 "`"
  | parameter method name =>
    utf8 "duplicate parameter `" ++ name ++ utf8 "` in method `" ++ method ++ utf8 "`"

end PhpClass
