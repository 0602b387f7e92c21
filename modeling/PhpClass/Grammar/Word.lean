import PhpClass.Grammar.Failure
import PhpClass.Scan.Terminator
import PhpClass.Text.Trim

/-!
# Required words

Names and texts that must be there. A reader returns what it has read and the rest of the text; where
the required thing is missing it says so.
-/

namespace PhpClass

namespace Grammar

/-- The text without the blanks in front of it. -/
def skipBlanks (t : Text) : Text := t.dropWhile Byte.isBlank

theorem skipBlanks_suffix (t : Text) : skipBlanks t <:+ t := List.dropWhile_suffix _

/-- An identifier and the rest, if one is there. -/
def ident? (t : Text) : Option (Text × Text) :=
  let (word, rest) := Text.ident t
  if word.isEmpty then none else some (word, rest)

/-- A required identifier. -/
def ident (what : Expected) (t : Text) : Read (Text × Text) :=
  match ident? t with
  | some found => .ok found
  | none => Read.expect what t

/-- A required name, qualified or not. -/
def name (what : Expected) (t : Text) : Read (Text × Text) :=
  let (word, rest) := Text.name t
  if word.isEmpty then Read.expect what t else .ok (word, rest)

/-- A required text up to the next `;` outside brackets, without the white space around it. Strings are
passed over if `strings` is set. -/
def statement (strings : Bool) (what : Expected) (t : Text) : Read (Text × Text) := do
  let (text, rest) ← Read.ofScan (Scan.terminated strings (ascii ';') t)
  match Text.visible? text with
  | some text => return (text, rest)
  | none => Read.expect what t

theorem ident?_suffix {t word rest : Text} (h : ident? t = some (word, rest)) : rest <:+ t := by
  unfold ident? at h
  dsimp only at h
  split at h
  · cases h
  · cases h
    exact Text.ident_suffix t

theorem ident_suffix {what : Expected} {t word rest : Text}
    (h : ident what t = .ok (word, rest)) : rest <:+ t := by
  unfold ident at h
  split at h
  · next hi => cases h; exact ident?_suffix hi
  · cases h

theorem name_suffix {what : Expected} {t word rest : Text}
    (h : name what t = .ok (word, rest)) : rest <:+ t := by
  unfold name at h
  dsimp only at h
  split at h
  · cases h
  · cases h
    exact Text.name_suffix t

theorem statement_suffix {strings : Bool} {what : Expected} {t text rest : Text}
    (h : statement strings what t = .ok (text, rest)) : rest <:+ t := by
  obtain ⟨⟨_, _⟩, hs, h⟩ := bind_eq_ok.1 h
  dsimp only at h
  split at h
  · cases h
    exact Scan.terminated_suffix (Read.ofScan_eq_ok.1 hs)
  · cases h

end Grammar

end PhpClass
