import PhpClass.Text.Lines
import PhpClass.Text.Utf8

/-!
# Lines and columns

An offset in bytes is shown to people as a line and a column, both counted from one. A column counts
characters; only an offset inside a character, which is no place between two characters, counts bytes.
-/

namespace PhpClass

/-- A place in a text as people count it. -/
structure Position where
  line : Nat
  column : Nat
  deriving DecidableEq, Repr

namespace Position

/-- The greatest line or column that is shown. -/
def limit : Nat := 0xFFFFFFFF

/-- The place of an offset; an offset past the end is the end. -/
def locate (t : Text) (offset : Nat) : Position :=
  let before := t.take offset
  let inLine := (before.reverse.takeWhile (· != Byte.lineFeed)).reverse
  let width := if t.isBoundary before.length then Text.charCount inLine else inLine.length
  ⟨min (before.count Byte.lineFeed + 1) limit, min (width + 1) limit⟩

/-- The line and the column with a colon between them. -/
def text (p : Position) : Text := decimal p.line ++ utf8 ":" ++ decimal p.column

end Position

end PhpClass
