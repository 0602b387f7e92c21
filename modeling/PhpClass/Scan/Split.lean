import PhpClass.Scan.Terminator

/-!
# Lists

The parts of a list are separated by the commas outside brackets, strings and comments. A part keeps its
blanks and comments and may be empty.
-/

namespace PhpClass

namespace Scan

/-- Puts a stretch of text in front of the first part. -/
def extendFirst (read : Text) : List Text → List Text
  | [] => [read]
  | part :: parts => (read ++ part) :: parts

/-- The parts of the first `limit` bytes, with `depth` brackets open. A string or comment that begins
before the limit is read to its end, though only what lies before the limit is kept. -/
def splitFirst (limit depth : Nat) (t : Text) : Scan (List Text) :=
  match limit, t with
  | 0, _ => .ok [[]]
  | _, [] => .ok [[]]
  | limit + 1, b :: t =>
    match _h : lexeme b t with
    | .error e => .error e
    | .ok (.byte, rest) =>
      if depth = 0 && b = ascii ',' then do
        let parts ← splitFirst limit 0 rest
        return [] :: parts
      else do
        let parts ← splitFirst limit (nest depth b) rest
        return extendFirst [b] parts
    | .ok (_, rest) => do
      let read := Text.upTo (b :: t) rest
      let parts ← splitFirst (limit + 1 - read.length) depth rest
      return extendFirst (read.take (limit + 1)) parts
termination_by t.length
decreasing_by all_goals exact lexeme_length ‹_›

/-- The parts of a list. -/
def split (t : Text) : Scan (List Text) := splitFirst t.length 0 t

end Scan

end PhpClass
