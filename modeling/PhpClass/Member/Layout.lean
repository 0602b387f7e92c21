import PhpClass.Comment.Layout
import PhpClass.Member.Content

/-!
# Writing members

The members of a class come in a fixed order: constants, properties, uses of traits, methods. A blank
line stands in front of each method and of each member with a comment.
-/

namespace PhpClass

open Piece (word)

/-- A scope and a space. -/
def Scope.pieces (s : Scope) : List Piece := [.text s.keyword, .space]

/-- The default of a variable. -/
def defaultPieces (value : Option Text) : List Piece :=
  value.elim [] fun value => [word " = ", .text value]

/-- The first line of a member: an optional blank line and the comment. -/
def memberStart (comment : Option Text) (isMethod : Bool) : List Piece :=
  (if isMethod || comment.isSome then [.newline] else []) ++ Comment.before 1 comment

/-- The end of a member that ends in `;`. -/
def memberEnd (trailing : Option Text) : List Piece :=
  [word ";"] ++ Comment.behind trailing ++ [.newline]

/-- A word that is written only under a condition. -/
def wordIf (condition : Bool) (s : String) : List Piece := if condition then [word s] else []

namespace Constant

def pieces (e : Element Constant) : List Piece :=
  memberStart e.commentBefore false ++
  [.indent 1, .text e.payload.scope.keyword, word " const ", .text e.payload.name, word " = ",
    .text e.payload.value] ++
  memberEnd e.trailingComment

end Constant

namespace TypedVar

/-- The type, the name and the default. -/
def declaration (v : TypedVar) : List Piece :=
  [.text v.type, .space, .text v.name] ++ defaultPieces v.defaultValue

def propertyPieces (e : Element TypedVar) : List Piece :=
  memberStart e.commentBefore false ++
  [.indent 1] ++ e.payload.effectiveScope.pieces ++ wordIf e.payload.isStatic "static " ++
  e.payload.declaration ++
  memberEnd e.trailingComment

def parameterPieces (v : TypedVar) : List Piece :=
  [.indent 2] ++ v.scope.elim [] Scope.pieces ++ v.declaration

end TypedVar

/-- A use of traits. -/
def traitPieces (e : Element Text) : List Piece :=
  memberStart e.commentBefore false ++
  [.indent 1, word "use ", .text e.payload] ++
  memberEnd e.trailingComment

namespace Method

/-- The parameters on a line each, between line breaks, if there are any. -/
def parameterPieces (m : Method) : List Piece :=
  if m.parameters.isEmpty then []
  else
    [.newline] ++
    ((m.parameters.values.map TypedVar.parameterPieces).intersperse [word ",", .newline]).flatten ++
    [.newline, .indent 1]

/-- The modifiers, the name, the parameters and the return type. -/
def signaturePieces (m : Method) : List Piece :=
  wordIf m.isAbstract "abstract " ++ wordIf m.isFinal "final " ++ m.scope.pieces ++
  wordIf m.isStatic "static " ++
  [word "function ", .text m.name, word " ("] ++ m.parameterPieces ++ [word ")"] ++
  m.returnType.elim [] fun type => [word ": ", .text type]

/-- The body behind the comment of the signature, which moves it to a line of its own. -/
def bodyPieces (m : Method) (comment : Option Text) : List Piece :=
  if m.isDeclarationOnly then memberEnd comment
  else
    let comment := Comment.behind comment
    (if comment.isEmpty then [.space] else comment ++ [.newline, .indent 1]) ++
    [.text m.body, .newline]

def pieces (e : Element Method) : List Piece :=
  memberStart e.commentBefore true ++
  [.indent 1] ++ e.payload.signaturePieces ++ e.payload.bodyPieces e.trailingComment

end Method

/-- The members, and the comment behind the last of them. -/
def ClassContent.pieces (c : ClassContent) : List Piece :=
  c.constants.values.flatMap Constant.pieces ++
  c.properties.values.flatMap TypedVar.propertyPieces ++
  c.traits.values.flatMap traitPieces ++
  c.methods.values.flatMap Method.pieces ++
  [.newline] ++ Comment.before 1 c.closingComment

end PhpClass
