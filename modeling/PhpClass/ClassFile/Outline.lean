import PhpClass.ClassFile.Basic

/-!
# Outlines

A class file at a glance: a line for the namespace, each import, the class and each of its members, with
a mark where there are comments.
-/

namespace PhpClass

/-- The mark of an element with comments. -/
def Element.mark {α : Type} (e : Element α) : Text :=
  if e.hasComments then utf8 " (commented)" else []

/-- The text under a condition. -/
def textIf (condition : Bool) (s : String) : Text := if condition then utf8 s else []

namespace Constant

def outline (e : Element Constant) : Text :=
  utf8 "  const " ++ e.payload.scope.keyword ++ utf8 " " ++ e.payload.name ++ utf8 " = " ++
    e.payload.value ++ e.mark

end Constant

namespace TypedVar

/-- The type and the name. -/
def summary (v : TypedVar) : Text := v.type ++ utf8 " " ++ v.name

def outline (e : Element TypedVar) : Text :=
  utf8 "  property " ++ e.payload.effectiveScope.keyword ++ textIf e.payload.isStatic " static" ++
    utf8 " " ++ e.payload.summary ++ e.mark

end TypedVar

def traitOutline (e : Element Text) : Text := utf8 "  use " ++ e.payload ++ e.mark

namespace Method

def outline (e : Element Method) : Text :=
  let m := e.payload
  utf8 "  method " ++ textIf m.isAbstract "abstract " ++ textIf m.isFinal "final " ++
    m.scope.keyword ++ textIf m.isStatic " static" ++ utf8 " " ++ m.name ++ utf8 "(" ++
    Text.join (utf8 ", ") (m.parameters.values.map TypedVar.summary) ++ utf8 ")" ++
    m.returnType.elim [] (utf8 ": " ++ ·) ++ e.mark

end Method

namespace ClassFile

def headerOutline (f : ClassFile) : Text :=
  f.signature.payload.kind.keyword?.elim [] (· ++ utf8 " ") ++
    utf8 "class " ++ f.className ++
    f.parentName?.elim [] (utf8 " extends " ++ ·) ++
    if f.interfaces.isEmpty then []
    else utf8 " implements " ++ Text.join (utf8 ", ") f.interfaces

/-- The lines of the outline. -/
def outlineLines (f : ClassFile) : List Text :=
  [utf8 "namespace " ++ f.namespaceName.payload] ++
  f.imports.map (fun i => utf8 "use " ++ i.payload) ++
  [f.headerOutline] ++
  f.content.constants.values.map Constant.outline ++
  f.content.properties.values.map TypedVar.outline ++
  f.content.traits.values.map traitOutline ++
  f.content.methods.values.map Method.outline

/-- The outline, with a line break behind each line. -/
def outline (f : ClassFile) : Text := f.outlineLines.flatMap (· ++ newline)

end ClassFile

end PhpClass
