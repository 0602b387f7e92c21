/-!
# Text as bytes

A source text is the list of bytes of its UTF-8 encoding. Everything that a class file is made of is
told apart by ASCII bytes, and a byte of a longer character is never an ASCII byte, so a list of bytes
can be cut wherever the program cuts.

A function that reads from the front of a text returns the part that it has not read. `upTo` turns such
a rest back into the part that was read.
-/

namespace PhpClass

/-- Text as the bytes of its UTF-8 encoding. -/
abbrev Text := List UInt8

/-- The bytes of a string. -/
def utf8 (s : String) : Text := s.toList.flatMap String.utf8EncodeChar

/-- The byte of an ASCII character. -/
abbrev ascii (c : Char) : UInt8 := c.toUInt8

/-- A number in decimal digits. -/
def decimal (n : Nat) : Text := (Nat.toDigits 10 n).map ascii

namespace Text

/-- What follows `front`, if the text begins with it. -/
def after? : Text → Text → Option Text
  | [], t => some t
  | _ :: _, [] => none
  | a :: front, b :: t => if a = b then after? front t else none

/-- What follows the first occurrence of `needle`. -/
def beyond? (needle : Text) : Text → Option Text
  | [] => after? needle []
  | b :: t =>
    match after? needle (b :: t) with
    | some rest => some rest
    | none => beyond? needle t

/-- The part of `t` in front of its unread rest. -/
def upTo (t rest : Text) : Text := t.take (t.length - rest.length)

/-- Splits at the first occurrence of `needle`, which belongs to neither part. -/
def cut? (needle t : Text) : Option (Text × Text) :=
  (beyond? needle t).map fun rest => (upTo t (needle ++ rest), rest)

/-- Whether `needle` occurs in the text. -/
def holds (needle t : Text) : Bool := (beyond? needle t).isSome

/-- Whether the text begins with `front`. -/
def startsWith (front t : Text) : Bool := (after? front t).isSome

/-- The texts one after the other, with `separator` between each two. -/
def join (separator : Text) (texts : List Text) : Text := List.intercalate separator texts

theorem join_cons_cons (s t u : Text) (ts : List Text) :
    join s (t :: u :: ts) = t ++ s ++ join s (u :: ts) := by
  unfold join
  rw [List.intercalate_cons_cons]

theorem after?_append (front rest : Text) : after? front (front ++ rest) = some rest := by
  induction front with
  | nil => cases rest <;> rfl
  | cons a front ih => simp [after?, ih]

theorem after?_eq_some {front t rest : Text} : after? front t = some rest ↔ t = front ++ rest := by
  constructor
  · intro h
    induction front generalizing t with
    | nil => cases t <;> simp_all [after?]
    | cons a front ih =>
      cases t with
      | nil => simp [after?] at h
      | cons b t =>
        by_cases hab : a = b
        · subst hab
          simp only [after?, if_true] at h
          rw [ih h, List.cons_append]
        · simp [after?, hab] at h
  · rintro rfl
    exact after?_append front rest

theorem startsWith_iff {front t : Text} : startsWith front t = true ↔ front <+: t := by
  unfold startsWith
  rw [Option.isSome_iff_exists]
  constructor
  · rintro ⟨rest, h⟩
    exact ⟨rest, (after?_eq_some.1 h).symm⟩
  · rintro ⟨rest, h⟩
    exact ⟨rest, after?_eq_some.2 h.symm⟩

theorem beyond?_append (needle rest : Text) : beyond? needle (needle ++ rest) = some rest := by
  have h := after?_append needle rest
  cases hn : needle ++ rest with
  | nil => rw [hn] at h; exact h
  | cons b t => rw [hn] at h; rw [beyond?, h]

theorem beyond?_suffix {needle t rest : Text} (h : beyond? needle t = some rest) :
    needle ++ rest <:+ t := by
  induction t with
  | nil => exact (after?_eq_some.1 h) ▸ List.suffix_rfl
  | cons b t ih =>
    rw [beyond?] at h
    split at h
    · next r hr =>
      cases h
      exact (after?_eq_some.1 hr) ▸ List.suffix_rfl
    · exact (ih h).trans (List.suffix_cons b t)

theorem upTo_append (read rest : Text) : upTo (read ++ rest) rest = read := by
  simp [upTo]

theorem upTo_append_rest {t rest : Text} (h : rest <:+ t) : upTo t rest ++ rest = t := by
  obtain ⟨read, rfl⟩ := h
  rw [upTo_append]

theorem cut?_eq_append {needle t before rest : Text} (h : cut? needle t = some (before, rest)) :
    t = before ++ needle ++ rest := by
  obtain ⟨r, hr, he⟩ := Option.map_eq_some_iff.1 h
  cases he
  rw [List.append_assoc, upTo_append_rest (beyond?_suffix hr)]

end Text

end PhpClass
