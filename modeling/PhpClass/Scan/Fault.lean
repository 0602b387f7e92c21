import PhpClass.Text.Byte

/-!
# Faults

A scanner reads from the front of a text and does not know where in a source that text lies. So a fault
says what went wrong and how many bytes were left from there to the end of the text; whoever knows the
source turns that into an offset.
-/

namespace PhpClass

/-- What went wrong, and the number of bytes from there to the end of the text. -/
structure Fault (κ : Type) where
  cause : κ
  left : Nat
  deriving DecidableEq, Repr

/-- What can go wrong while code is scanned. -/
inductive ScanCause where
  /-- A block comment without its end. -/
  | unclosedComment
  /-- A string without its closing quote. -/
  | unclosedString
  /-- A bracket without its partner. -/
  | unclosedBlock
  /-- A byte that cannot stand here. -/
  | unexpected (b : UInt8)
  /-- A byte that was never found. -/
  | expected (b : UInt8)
  deriving DecidableEq, Repr

/-- The result of scanning. -/
abbrev Scan (α : Type) := Except (Fault ScanCause) α

/-- A sequence of two steps succeeds if both do. -/
theorem bind_eq_ok {ε α β : Type} {x : Except ε α} {f : α → Except ε β} {b : β} :
    x >>= f = .ok b ↔ ∃ a, x = .ok a ∧ f a = .ok b := by
  cases x <;> simp [bind, Except.bind]

/-- It fails as the first step does, or as the second one behind the first. -/
theorem bind_eq_error {ε α β : Type} {x : Except ε α} {f : α → Except ε β} {e : ε} :
    x >>= f = .error e ↔ x = .error e ∨ ∃ a, x = .ok a ∧ f a = .error e := by
  cases x <;> simp [bind, Except.bind]

theorem mapError_eq_ok {ε δ α : Type} {x : Except ε α} {f : ε → δ} {a : α} :
    x.mapError f = .ok a ↔ x = .ok a := by
  cases x with
  | error e => exact ⟨(nomatch ·), (nomatch ·)⟩
  | ok b => exact ⟨fun h => by cases h; rfl, fun h => by cases h; rfl⟩

theorem toOption_eq_some {ε α : Type} {x : Except ε α} {a : α} : x.toOption = some a ↔ x = .ok a := by
  cases x <;> simp [Except.toOption]

/-- Whether a result is a given success can be decided if the failures cannot be told apart. -/
instance decidableEqOk {ε α : Type} [DecidableEq α] (x : Except ε α) (a : α) : Decidable (x = .ok a) :=
  decidable_of_iff (x.toOption = some a) toOption_eq_some

theorem map_toOption_eq_some {ε α β : Type} {x : Except ε α} {f : α → β} {b : β} :
    x.toOption.map f = some b ↔ ∃ a, x = .ok a ∧ f a = b := by
  cases x <;> simp [Except.toOption]

namespace ScanCause

/-- The wording. A byte is shown as the character with its code. -/
def text : ScanCause → Text
  | unclosedComment => utf8 "unterminated block comment"
  | unclosedString => utf8 "unterminated string literal"
  | unclosedBlock => utf8 "unterminated block"
  | unexpected b => utf8 "unexpected `" ++ Byte.char b ++ utf8 "`"
  | expected b => utf8 "expected `" ++ Byte.char b ++ utf8 "`"

end ScanCause

/-- A scan failure at an offset of a source. -/
structure ScanError where
  cause : ScanCause
  offset : Nat
  deriving DecidableEq, Repr

/-- The wording with the offset. -/
def ScanError.message (e : ScanError) : Text :=
  e.cause.text ++ utf8 " at byte " ++ decimal e.offset

end PhpClass
