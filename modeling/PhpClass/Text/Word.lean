import PhpClass.Text.Byte

/-!
# Words

Keywords, identifiers, qualified names and types at the front of a text. Each reader returns the word and
what follows it; a word that is not there is empty.
-/

namespace PhpClass

namespace Text

/-- What follows the keyword, if the text begins with it as a whole word. -/
def keyword? (word t : Text) : Option Text :=
  match after? word t with
  | some [] => some []
  | some (b :: rest) => if Byte.isIdent b then none else some (b :: rest)
  | none => none

/-- The longest front of bytes in the class, and the rest. -/
def splitWhile (p : UInt8 → Bool) (t : Text) : Text × Text := (t.takeWhile p, t.dropWhile p)

/-- An identifier, which does not begin with a digit. -/
def ident (t : Text) : Text × Text :=
  if t.head?.any Byte.isDigit then ([], t) else splitWhile Byte.isIdent t

/-- A possibly qualified name. -/
def name (t : Text) : Text × Text := splitWhile Byte.isName t

/-- What follows a type. An `&` belongs to it only in front of a further name, so the mark of a
parameter passed by reference is left alone. -/
def afterType : Text → Text
  | [] => []
  | b :: t =>
    if Byte.isType b then afterType t
    else if b = ascii '&' && t.head?.any Byte.isIdent then afterType t
    else b :: t

/-- A type: names with `\`, `?`, `|` and `&`. -/
def type (t : Text) : Text × Text := (upTo t (afterType t), afterType t)

theorem keyword?_eq_append {word t rest : Text} (h : keyword? word t = some rest) :
    t = word ++ rest := by
  unfold keyword? at h
  split at h
  · next ha => cases h; exact after?_eq_some.1 ha
  · next ha =>
    split at h
    · cases h
    · cases h; exact after?_eq_some.1 ha
  · cases h

theorem splitWhile_suffix (p : UInt8 → Bool) (t : Text) : (splitWhile p t).2 <:+ t :=
  List.dropWhile_suffix p

theorem ident_suffix (t : Text) : (ident t).2 <:+ t := by
  unfold ident
  split
  · exact List.suffix_rfl
  · exact splitWhile_suffix _ t

theorem name_suffix (t : Text) : (name t).2 <:+ t := splitWhile_suffix _ t

theorem afterType_suffix (t : Text) : afterType t <:+ t := by
  induction t with
  | nil => exact List.suffix_rfl
  | cons b t ih =>
    rw [afterType]
    split
    · exact ih.trans (List.suffix_cons b t)
    · split
      · exact ih.trans (List.suffix_cons b t)
      · exact List.suffix_rfl

theorem type_suffix (t : Text) : (type t).2 <:+ t := afterType_suffix t

end Text

end PhpClass
