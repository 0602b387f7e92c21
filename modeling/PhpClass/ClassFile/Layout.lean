import PhpClass.ClassFile.Basic
import PhpClass.Member.Layout

/-!
# Writing class files

A class file in its canonical form begins with the open tag and ends with the closing brace of the class,
without a line break behind it. The comments of the extended class are written with those of the class.
-/

namespace PhpClass

open Piece (word)

namespace ClassFile

def namespacePieces (f : ClassFile) : List Piece :=
  Comment.before 0 f.namespaceName.commentBefore ++
  [.newline, word "namespace ", .text f.namespaceName.payload, word ";"] ++
  Comment.behind f.namespaceName.trailingComment ++
  [.newline, .newline]

def importPieces (i : Element Text) : List Piece :=
  Comment.before 0 i.commentBefore ++
  [word "use ", .text i.payload, word ";"] ++ Comment.behind i.trailingComment ++ [.newline]

/-- The comments in front of the class: its own and those of the extended class. -/
def headerComment (f : ClassFile) : Option Text :=
  joinComments? [f.signature.commentBefore, f.parent.bind Element.commentBefore]

/-- The comment behind the header: that of the class, or else that of the extended class. -/
def headerTrailing (f : ClassFile) : Option Text :=
  f.signature.trailingComment.or (f.parent.bind Element.trailingComment)

def headerPieces (f : ClassFile) : List Piece :=
  Comment.before 0 f.headerComment ++
  f.signature.payload.kind.keyword?.elim [] (fun keyword => [.text keyword, .space]) ++
  [word "class ", .text f.className] ++
  f.parentName?.elim [] (fun parent => [word " extends ", .text parent]) ++
  (if f.interfaces.isEmpty then []
    else [word " implements ", .text (Text.join (utf8 ", ") f.interfaces)]) ++
  Comment.behind f.headerTrailing ++
  [.newline]

/-- The pieces of the whole file. -/
def pieces (f : ClassFile) : List Piece :=
  [word "<?php", .newline, .newline] ++
  f.namespacePieces ++
  f.imports.flatMap importPieces ++
  [.newline] ++
  f.headerPieces ++
  [word "\x7b", .newline, .newline] ++
  f.content.pieces ++
  [word "\x7d"]

/-- The file in its canonical form. -/
def generate (f : ClassFile) : Text := Layout.standard.render f.pieces

end ClassFile

end PhpClass
