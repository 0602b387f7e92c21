import PhpClass.Text.Utf8
import PhpClass.Text.Word

/-!
# Cursors

A cursor is a place in a text, from the front of its first byte to the end of its last. Every move stops
at the end. Words are looked for in the bytes ahead; what a cursor hands out is a stretch of whole
characters, and is empty where the stretch asked for is not one.
-/

namespace PhpClass

/-- A place in a text. -/
structure Cursor where
  source : Text
  offset : Nat
  offset_le : offset ≤ source.length

namespace Cursor

/-- The cursor at an offset, or at the end if the text is shorter. -/
def ofOffset (source : Text) (offset : Nat) : Cursor :=
  ⟨source, min offset source.length, Nat.min_le_right _ _⟩

/-- The cursor in front of the text. -/
def start (source : Text) : Cursor := .ofOffset source 0

variable (c : Cursor)

/-- The bytes ahead. -/
def ahead : Text := c.source.drop c.offset

/-- The same text at another offset. -/
def seek (offset : Nat) : Cursor := .ofOffset c.source offset

/-- The cursor moved by `n` bytes. -/
def advance (n : Nat) : Cursor := c.seek (c.offset + n)

/-- The cursor in front of `rest`, a rest of the bytes ahead. -/
def seekRest (rest : Text) : Cursor := c.seek (c.source.length - rest.length)

/-- Whether nothing is ahead. -/
def isAtEnd : Bool := c.offset == c.source.length

/-- The byte ahead, 0 at the end. -/
def current : UInt8 := c.ahead.headD 0

/-- The byte after the one ahead, 0 if there is none. -/
def peek : UInt8 := (c.ahead.drop 1).headD 0

/-- A stretch of the text. -/
def slice (start stop : Nat) : Text := c.source.slice start stop

/-- The text ahead. -/
def rest : Text := c.slice c.offset c.source.length

/-- The text from `start` up to the cursor. -/
def sliceFrom (start : Nat) : Text := c.slice start c.offset

/-- Whether the bytes ahead begin with `front`. -/
def startsWith (front : Text) : Bool := Text.startsWith front c.ahead

/-- Whether a keyword is ahead as a whole word. -/
def isAtKeyword (word : Text) : Bool := (Text.keyword? word c.ahead).isSome

/-- The cursor past `front`, if that is ahead. -/
def eat? (front : Text) : Option Cursor := (Text.after? front c.ahead).map c.seekRest

/-- The cursor past a keyword, if that is ahead as a whole word. -/
def eatKeyword? (word : Text) : Option Cursor := (Text.keyword? word c.ahead).map c.seekRest

/-- The cursor past the bytes ahead that are in the class. -/
def eatWhile (p : UInt8 → Bool) : Cursor := c.seekRest (c.ahead.dropWhile p)

/-- The cursor past spaces and tabs. -/
def eatGap : Cursor := c.eatWhile Byte.isGap

/-- The cursor past blanks. -/
def eatBlank : Cursor := c.eatWhile Byte.isBlank

/-- The cursor at the end of its line. -/
def eatLine : Cursor := c.eatWhile fun b => !Byte.isLineEnd b

/-- The identifier ahead, and the cursor past it. -/
def eatIdent : Text × Cursor :=
  let past := c.seekRest (Text.ident c.ahead).2
  (past.sliceFrom c.offset, past)

/-- The offset of the next occurrence of `needle`. -/
def find? (needle : Text) : Option Nat :=
  (Text.beyond? needle c.ahead).map fun rest => c.source.length - (needle ++ rest).length

end Cursor

end PhpClass
