import PhpClass.Text.Byte

/-!
# Elements

A part of a class file together with the comments that belong to it: those in front of it, joined by
line breaks, and the one that follows it on its line.
-/

namespace PhpClass

/-- A payload with its comments. -/
structure Element (α : Type) where
  payload : α
  commentBefore : Option Text := none
  trailingComment : Option Text := none
  deriving DecidableEq, Repr

namespace Element

variable {α β : Type}

/-- Whether any comment belongs to the element. -/
def hasComments (e : Element α) : Bool := e.commentBefore.isSome || e.trailingComment.isSome

/-- Changes the payload and keeps the comments. -/
def map (f : α → β) (e : Element α) : Element β :=
  ⟨f e.payload, e.commentBefore, e.trailingComment⟩

end Element

/-- Comments one after the other, if there are any. -/
def joinComments? (comments : List (Option Text)) : Option Text :=
  match comments.filterMap id with
  | [] => none
  | present => some (Text.join newline present)

end PhpClass
