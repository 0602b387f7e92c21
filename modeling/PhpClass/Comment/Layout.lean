import PhpClass.Layout
import PhpClass.Text.Lines
import PhpClass.Text.Trim

/-!
# Writing comments

A comment in front of an element is written as one block comment, whose interior reads back as the same
text. A text that would end a block comment too early is written as a line comment per line. A comment
behind an element is a line comment on its line.
-/

namespace PhpClass

namespace Comment

/-- The pieces of a comment that stands on lines of its own. -/
def leading (level : Nat) (text : Text) : List Piece :=
  if Text.holds (utf8 "*/") text then
    text.lines.flatMap fun line => [.indent level, .word "//", .text line, .newline]
  else [.indent level, .word "/*", .text text, .word "*/", .newline]

/-- The pieces of a comment in front of an element, none if there is no comment. -/
def before (level : Nat) (comment : Option Text) : List Piece :=
  comment.elim [] (leading level)

/-- The pieces of a comment behind an element, none if it would not show. -/
def behind (comment : Option Text) : List Piece :=
  match comment.bind Text.visible? with
  | some text => [.word " // ", .text text.oneLine]
  | none => []

end Comment

end PhpClass
