import PhpClass.Text.Basic

/-!
# Characters of a text

Which lists of bytes are UTF-8, where their characters begin, and how many there are.
-/

namespace PhpClass

namespace Text

/-- A byte that continues a character begun before it. -/
def isContinuation (b : UInt8) : Bool := 0x80 ≤ b && b ≤ 0xBF

/-- The number of characters. -/
def charCount (t : Text) : Nat := t.countP fun b => !isContinuation b

/-- Whether `i` is the end of the text or the place where a character of it begins. -/
def isBoundary (t : Text) (i : Nat) : Bool :=
  match t[i]? with
  | some b => i == 0 || !isContinuation b
  | none => i == t.length

/-- The bytes from `start` up to `stop`, and nothing if that is not a stretch of whole characters. -/
def slice (t : Text) (start stop : Nat) : Text :=
  if start ≤ stop && isBoundary t start && isBoundary t stop then (t.take stop).drop start else []

/-- The last bytes of a character: as many continuations as `more` says, the first of them from
`low` to `high`; then whole characters again. -/
def isUtf8From : Nat → UInt8 → UInt8 → Text → Bool
  | 0, _, _, [] => true
  | _ + 1, _, _, [] => false
  | more + 1, low, high, b :: t => low ≤ b && b ≤ high && isUtf8From more 0x80 0xBF t
  | 0, _, _, b :: t =>
    if b < 0x80 then isUtf8From 0 0x80 0xBF t
    else if 0xC2 ≤ b && b ≤ 0xDF then isUtf8From 1 0x80 0xBF t
    else if b == 0xE0 then isUtf8From 2 0xA0 0xBF t
    else if b == 0xED then isUtf8From 2 0x80 0x9F t
    else if 0xE1 ≤ b && b ≤ 0xEF then isUtf8From 2 0x80 0xBF t
    else if b == 0xF0 then isUtf8From 3 0x90 0xBF t
    else if 0xF1 ≤ b && b ≤ 0xF3 then isUtf8From 3 0x80 0xBF t
    else if b == 0xF4 then isUtf8From 3 0x80 0x8F t
    else false

/-- Whether the bytes are the UTF-8 encoding of a string: no character is written longer than it
need be, and none is a surrogate or beyond U+10FFFF. -/
def isUtf8 (t : Text) : Bool := isUtf8From 0 0x80 0xBF t

end Text

end PhpClass
