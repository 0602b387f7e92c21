import PhpClass.Text.Byte

/-!
# Lines

A text is a sequence of pieces with a line feed between each two. Its lines are these pieces without a
carriage return in front of their line feed; what follows the last line feed is a line only if it is
not empty.
-/

namespace PhpClass

namespace Text

/-- The pieces between line feeds, at least one. -/
def pieces (t : Text) : List Text := t.splitOn Byte.lineFeed

/-- The text without one carriage return at its end. -/
def dropReturn (t : Text) : Text :=
  if t.getLast? = some Byte.carriageReturn then t.dropLast else t

/-- The text without the carriage returns at its end. -/
def dropReturns (t : Text) : Text :=
  (t.reverse.dropWhile (· == Byte.carriageReturn)).reverse

/-- The lines, without their ends. -/
def lines (t : Text) : List Text :=
  let pieces := t.pieces
  let last := pieces.getLastD []
  pieces.dropLast.map dropReturn ++ if last.isEmpty then [] else [last]

/-- The text on one line: each end of a line is replaced by a space. -/
def oneLine (t : Text) : Text := t.map fun b => if Byte.isLineEnd b then Byte.space else b

end Text

end PhpClass
