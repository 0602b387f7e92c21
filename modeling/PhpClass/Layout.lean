import PhpClass.Text.Byte

/-!
# Layouts

A generated text is a list of pieces. What a line break and a step of indentation look like is not part
of the pieces but of the layout that they are written in.
-/

namespace PhpClass

/-- A piece of generated text. -/
inductive Piece where
  | text (t : Text)
  | newline
  | indent (level : Nat)
  | space
  deriving DecidableEq, Repr

namespace Piece

/-- A piece of fixed text. -/
def word (s : String) : Piece := .text (utf8 s)

end Piece

/-- How line breaks and steps of indentation are written. -/
structure Layout where
  newline : Text
  indent : Text
  deriving DecidableEq, Repr

namespace Layout

/-- A line feed, and four spaces per step. -/
def standard : Layout := ⟨PhpClass.newline, List.replicate 4 Byte.space⟩

/-- The text of one piece. -/
def piece (l : Layout) : Piece → Text
  | .text t => t
  | .newline => l.newline
  | .indent level => (List.replicate level l.indent).flatten
  | .space => [Byte.space]

/-- The text of pieces one after the other. -/
def render (l : Layout) (pieces : List Piece) : Text := pieces.flatMap l.piece

end Layout

end PhpClass
