import PhpClass.Comment.Element
import PhpClass.Member.Duplicate
import PhpClass.Member.Scope
import PhpClass.OrderedMap

/-!
# Members

Constants, properties, methods and uses of traits. Names keep their sigils and marks, and expressions,
types and bodies are kept as they are written.
-/

namespace PhpClass

/-- A class constant. It belongs to the class and never to an instance. -/
structure Constant where
  name : Text
  value : Text
  scope : Scope := .pub
  deriving DecidableEq, Repr

/-- The type of a variable that is declared without one. -/
def mixed : Text := utf8 "mixed"

/-- A property or a parameter. The name begins with `$`, or with `&` or `...` in front of that. -/
structure TypedVar where
  name : Text
  type : Text := mixed
  defaultValue : Option Text := none
  scope : Option Scope := none
  isStatic : Bool := false
  deriving DecidableEq, Repr

namespace TypedVar

/-- Whether a type other than the general one is declared. -/
def isTyped (v : TypedVar) : Bool := v.type != mixed

/-- Whether the parameter takes all remaining arguments. -/
def isVariadic (v : TypedVar) : Bool := Text.startsWith (utf8 "...") v.name

/-- Whether the parameter is passed by reference. -/
def isByReference (v : TypedVar) : Bool := Text.startsWith (utf8 "&") v.name

/-- The scope of a property. -/
def effectiveScope (v : TypedVar) : Scope := v.scope.getD .pub

end TypedVar

/-- A method. The body has its braces, and is empty if the method is only declared. -/
structure Method where
  name : Text
  parameters : OrderedMap TypedVar := {}
  body : Text := []
  scope : Scope := .pub
  isStatic : Bool := false
  returnType : Option Text := none
  isAbstract : Bool := false
  isFinal : Bool := false
  deriving DecidableEq

namespace Method

/-- Whether the method has no body. -/
def isDeclarationOnly (m : Method) : Bool := m.body.isEmpty

/-- Appends a parameter. -/
def addParameter (m : Method) (v : TypedVar) : Except Duplicate Method := do
  let parameters ← (m.parameters.insert v.name v).mapError fun e => .parameter m.name e.key
  return { m with parameters }

/-- Appends parameters one after the other. -/
def addParameters (m : Method) : List TypedVar → Except Duplicate Method
  | [] => .ok m
  | v :: vs => do (← m.addParameter v).addParameters vs

/-- The parameter under a key. -/
def parameter? (m : Method) (key : Text) : Option TypedVar := m.parameters.get? key

/-- Removes the parameter under a key. -/
def removeParameter (m : Method) (key : Text) : Method :=
  { m with parameters := m.parameters.erase key }

/-- Changes the parameter under a key, which it keeps even if its name changes. -/
def modifyParameter (m : Method) (key : Text) (f : TypedVar → TypedVar) : Method :=
  { m with parameters := m.parameters.modify key f }

end Method

/-- A member of a class body. A use of traits is the text between `use` and its end. -/
inductive Member where
  | constant (e : Element Constant)
  | property (e : Element TypedVar)
  | method (e : Element Method)
  | traitUse (e : Element Text)
  deriving DecidableEq

namespace Member

def kind : Member → MemberKind
  | constant _ => .constant
  | property _ => .property
  | method _ => .method
  | traitUse _ => .traitUse

/-- The name that tells members of one kind apart. -/
def name : Member → Text
  | constant e => e.payload.name
  | property e => e.payload.name
  | method e => e.payload.name
  | traitUse e => e.payload

def commentBefore : Member → Option Text
  | constant e => e.commentBefore
  | property e => e.commentBefore
  | method e => e.commentBefore
  | traitUse e => e.commentBefore

end Member

end PhpClass
