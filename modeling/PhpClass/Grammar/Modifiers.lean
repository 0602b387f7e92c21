import PhpClass.Member.Scope
import PhpClass.Text.Word

/-!
# Modifiers

The keywords in front of a member, in any order, each at most once and at most one of them a scope.
-/

namespace PhpClass

/-- A modifier of a member. -/
inductive Modifier where
  | scope (s : Scope)
  | static
  | abstract
  | final
  deriving DecidableEq, Repr

namespace Modifier

def keyword : Modifier → Text
  | scope s => s.keyword
  | static => utf8 "static"
  | abstract => utf8 "abstract"
  | final => utf8 "final"

/-- The scopes as modifiers. -/
def scopes : List Modifier := Scope.all.map scope

/-- The modifiers of a constant. -/
def ofConstant : List Modifier := scopes

/-- The modifiers of a property. -/
def ofProperty : List Modifier := scopes ++ [static]

/-- The modifiers of a method. -/
def ofMethod : List Modifier := scopes ++ [static, abstract, final]

theorem keyword_ne_nil (m : Modifier) : m.keyword ≠ [] := by
  cases m with
  | scope s => cases s <;> decide
  | static => decide
  | abstract => decide
  | final => decide

end Modifier

/-- The modifiers that were read. -/
structure Modifiers where
  scope : Option Scope := none
  isStatic : Bool := false
  isAbstract : Bool := false
  isFinal : Bool := false
  deriving DecidableEq, Repr

namespace Modifiers

/-- Whether a further modifier may follow. -/
def admits (ms : Modifiers) : Modifier → Bool
  | .scope _ => ms.scope.isNone
  | .static => !ms.isStatic
  | .abstract => !ms.isAbstract
  | .final => !ms.isFinal

def add (ms : Modifiers) : Modifier → Modifiers
  | .scope s => { ms with scope := some s }
  | .static => { ms with isStatic := true }
  | .abstract => { ms with isAbstract := true }
  | .final => { ms with isFinal := true }

/-- The next modifier among those allowed, and what follows it and the blanks behind it. -/
def next? (allowed : List Modifier) (ms : Modifiers) (t : Text) : Option (Modifier × Text) :=
  (allowed.filter ms.admits).findSome? fun m =>
    (Text.keyword? m.keyword t).map fun rest => (m, rest.dropWhile Byte.isBlank)

theorem next?_suffix {allowed : List Modifier} {ms : Modifiers} {t rest : Text} {m : Modifier}
    (h : next? allowed ms t = some (m, rest)) : rest <:+ t ∧ rest.length < t.length := by
  obtain ⟨n, _, hn⟩ := List.exists_of_findSome?_eq_some h
  obtain ⟨r, hr, he⟩ := Option.map_eq_some_iff.1 hn
  cases he
  have happ := Text.keyword?_eq_append hr
  have hpos := List.length_pos_iff.2 m.keyword_ne_nil
  have hle := (List.dropWhile_suffix Byte.isBlank (l := r)).length_le
  refine ⟨(List.dropWhile_suffix _).trans (happ ▸ List.suffix_append _ _), ?_⟩
  rw [happ, List.length_append]
  omega

/-- Reads modifiers and the blanks behind each, on top of those read before. -/
def readFrom (allowed : List Modifier) (ms : Modifiers) (t : Text) : Modifiers × Text :=
  match _h : next? allowed ms t with
  | some (m, rest) => readFrom allowed (ms.add m) rest
  | none => (ms, t)
termination_by t.length
decreasing_by exact (next?_suffix ‹_›).2

/-- Reads the modifiers in front of a member. -/
def read (allowed : List Modifier) (t : Text) : Modifiers × Text := readFrom allowed {} t

theorem readFrom_suffix (allowed : List Modifier) (ms : Modifiers) (t : Text) :
    (readFrom allowed ms t).2 <:+ t := by
  fun_induction readFrom allowed ms t with
  | case1 ms t m rest h ih => exact ih.trans (next?_suffix h).1
  | case2 => exact List.suffix_rfl

theorem read_suffix (allowed : List Modifier) (t : Text) : (read allowed t).2 <:+ t :=
  readFrom_suffix allowed {} t

end Modifiers

end PhpClass
