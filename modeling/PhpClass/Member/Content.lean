import PhpClass.Member.Basic

/-!
# Class contents

The members of a class in four sections, one per kind, each in the order in which its members were
added. A member is found under the name that it had when it was added.
-/

namespace PhpClass

/-- What stands between the braces of a class. -/
structure ClassContent where
  constants : OrderedMap (Element Constant) := {}
  properties : OrderedMap (Element TypedVar) := {}
  methods : OrderedMap (Element Method) := {}
  traits : OrderedMap (Element Text) := {}
  /-- The comments behind the last member. -/
  closingComment : Option Text := none
  deriving DecidableEq

namespace ClassContent

/-- Appends a member to the section of its kind. -/
def add (c : ClassContent) (m : Member) : Except Duplicate ClassContent :=
  let taken (e : DuplicateKey) : Duplicate := .member m.kind e.key
  match m with
  | .constant e => do
    return { c with constants := ← (c.constants.insert e.payload.name e).mapError taken }
  | .property e => do
    return { c with properties := ← (c.properties.insert e.payload.name e).mapError taken }
  | .method e => do
    return { c with methods := ← (c.methods.insert e.payload.name e).mapError taken }
  | .traitUse e => do
    return { c with traits := ← (c.traits.insert e.payload e).mapError taken }

/-- Appends members one after the other. -/
def addAll (c : ClassContent) : List Member → Except Duplicate ClassContent
  | [] => .ok c
  | m :: ms => do (← c.add m).addAll ms

/-- The member of a kind under a key. -/
def member? (c : ClassContent) (kind : MemberKind) (key : Text) : Option Member :=
  match kind with
  | .constant => (c.constants.get? key).map .constant
  | .property => (c.properties.get? key).map .property
  | .method => (c.methods.get? key).map .method
  | .traitUse => (c.traits.get? key).map .traitUse

/-- Removes the member of a kind under a key. -/
def remove (c : ClassContent) (kind : MemberKind) (key : Text) : ClassContent :=
  match kind with
  | .constant => { c with constants := c.constants.erase key }
  | .property => { c with properties := c.properties.erase key }
  | .method => { c with methods := c.methods.erase key }
  | .traitUse => { c with traits := c.traits.erase key }

/-- Changes a constant where it stands. -/
def modifyConstant (c : ClassContent) (key : Text) (f : Element Constant → Element Constant) :
    ClassContent :=
  { c with constants := c.constants.modify key f }

/-- Changes a property where it stands. -/
def modifyProperty (c : ClassContent) (key : Text) (f : Element TypedVar → Element TypedVar) :
    ClassContent :=
  { c with properties := c.properties.modify key f }

/-- Changes a method where it stands. -/
def modifyMethod (c : ClassContent) (key : Text) (f : Element Method → Element Method) :
    ClassContent :=
  { c with methods := c.methods.modify key f }

/-- The keys of a section in order. -/
def keys (c : ClassContent) : MemberKind → List Text
  | .constant => c.constants.keys
  | .property => c.properties.keys
  | .method => c.methods.keys
  | .traitUse => c.traits.keys

/-- The number of members. -/
def size (c : ClassContent) : Nat :=
  c.constants.size + c.properties.size + c.methods.size + c.traits.size

/-- Whether there are no members. -/
def isEmpty (c : ClassContent) : Bool := c.size == 0

end ClassContent

end PhpClass
