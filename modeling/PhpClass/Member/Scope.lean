import PhpClass.Text.Basic

/-!
# Scopes

Who may use a member.
-/

namespace PhpClass

/-- The visibility of a member. -/
inductive Scope where
  | pub
  | priv
  | prot
  deriving DecidableEq, Repr

namespace Scope

/-- The scope of a member that names none. -/
instance : Inhabited Scope := ⟨pub⟩

/-- The scopes in the order in which their keywords are tried. -/
def all : List Scope := [pub, priv, prot]

/-- The keyword. -/
def keyword : Scope → Text
  | pub => utf8 "public"
  | priv => utf8 "private"
  | prot => utf8 "protected"

/-- The scope with a keyword. -/
def ofKeyword? (word : Text) : Option Scope := all.find? fun s => s.keyword == word

end Scope

end PhpClass
