import PhpClass.Text.Basic

/-!
# White space around a text

White space is Unicode's: the characters U+0009 to U+000D, U+0020, U+0085, U+00A0, U+1680, U+2000 to
U+200A, U+2028, U+2029, U+202F, U+205F and U+3000. They are encoded in one, two or three bytes, and a
table per length tells them apart. Read from the end of a text, the bytes of a character come in the
opposite order.
-/

namespace PhpClass

/-- The encodings of white space, told apart by their bytes in the order in which they are met. -/
structure SpaceTable where
  one : UInt8 → Bool
  two : UInt8 → UInt8 → Bool
  three : UInt8 → UInt8 → UInt8 → Bool

namespace SpaceTable

/-- White space as met from the front. -/
def forward : SpaceTable where
  one b := b == 0x20 || (0x09 ≤ b && b ≤ 0x0D)
  two b c := b == 0xC2 && (c == 0x85 || c == 0xA0)
  three b c d :=
    (b == 0xE1 && c == 0x9A && d == 0x80) ||
    (b == 0xE2 && c == 0x80 && ((0x80 ≤ d && d ≤ 0x8A) || d == 0xA8 || d == 0xA9 || d == 0xAF)) ||
    (b == 0xE2 && c == 0x81 && d == 0x9F) ||
    (b == 0xE3 && c == 0x80 && d == 0x80)

/-- White space as met from the back. -/
def backward : SpaceTable where
  one := forward.one
  two b c := forward.two c b
  three b c d := forward.three d c b

/-- The text without the white space in front of it. -/
def drop (s : SpaceTable) : Text → Text
  | [] => []
  | [b] => if s.one b then [] else [b]
  | [b, c] => if s.one b then s.drop [c] else if s.two b c then [] else [b, c]
  | b :: c :: d :: t =>
    if s.one b then s.drop (c :: d :: t)
    else if s.two b c then s.drop (d :: t)
    else if s.three b c d then s.drop t
    else b :: c :: d :: t

end SpaceTable

namespace Text

/-- The text without leading white space. -/
def trimStart (t : Text) : Text := SpaceTable.forward.drop t

/-- The text without trailing white space. -/
def trimEnd (t : Text) : Text := (SpaceTable.backward.drop t.reverse).reverse

/-- The text without white space around it. -/
def trim (t : Text) : Text := trimEnd (trimStart t)

/-- Whether the text is white space throughout. -/
def isSpace (t : Text) : Bool := (trimStart t).isEmpty

/-- The trimmed text, if it is more than white space. -/
def visible? (t : Text) : Option Text := if isSpace t then none else some (trim t)

end Text

end PhpClass
