import PhpClass.Scan.Bracket
import PhpClass.Scan.Split
import PhpClass.Text.Utf8

/-!
# Scanning at an offset

The scanners, asked about a place in a source. Places are offsets in bytes; one past the end stands for
the end. A result is the offset at which the unread rest begins.
-/

namespace PhpClass

namespace Scan

/-- The offset at which a rest of the source begins. -/
def offsetOf (source rest : Text) : Nat := source.length - rest.length

/-- Runs a scanner on what the source holds from an offset on. -/
def fromOffset {α : Type} (source : Text) (offset : Nat) (scan : Text → Scan α) :
    Except ScanError α :=
  (scan (source.drop offset)).mapError fun f => ⟨f.cause, source.length - f.left⟩

/-- The end of the gap at an offset, and the interiors of its comments. -/
def gapAt (source : Text) (offset : Nat) : Except ScanError (Nat × Text) := do
  let (comments, rest) ← fromOffset source offset gap
  return (offsetOf source rest, comments)

/-- The end of the line comment at an offset, or of the spaces and tabs there, and the comment. -/
def lineCommentAt (source : Text) (offset : Nat) : Nat × Option Text :=
  let (comment, rest) := lineComment (source.drop offset)
  (offsetOf source rest, comment)

/-- The offset of the first terminator outside brackets. -/
def terminatorAt (strings : Bool) (terminator : UInt8) (source : Text) (offset : Nat) :
    Except ScanError Nat := do
  let rest ← fromOffset source offset (afterTerminator strings terminator 0)
  return offsetOf source (terminator :: rest)

/-- The offset of the partner of the bracket at an offset. -/
def partnerAt (source : Text) (offset : Nat) : Except ScanError Nat :=
  if offset ≤ source.length then do
    let rest ← fromOffset source offset afterBracket
    return offsetOf source rest - 1
  else .error ⟨.unexpected 0, offset⟩

/-- The parts of a list that lies from `start` up to `stop`. A part whose end is inside a character is
given up. -/
def splitAt (source : Text) (start stop : Nat) : Except ScanError (List Text) := do
  let stop := min stop source.length
  let parts ← fromOffset source start (splitFirst (stop - start) 0)
  let parts := if Text.isBoundary source (min start source.length) then parts else [] :: parts.tail
  return if Text.isBoundary source stop then parts else parts.dropLast ++ [[]]

end Scan

end PhpClass
