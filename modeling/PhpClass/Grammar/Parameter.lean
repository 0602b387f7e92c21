import PhpClass.Grammar.Word
import PhpClass.Member.Basic
import PhpClass.Scan.Split
import PhpClass.Scan.Strip

/-!
# Parameters

A parameter is an optional scope, an optional type, the marks `&` and `...`, a name with its `$`, and an
optional default behind `=`. Comments in a parameter list are not kept.
-/

namespace PhpClass

namespace Grammar

/-- The type that was read, or the general one if there was none. -/
def typeOrMixed (type : Text) : Text := if type.isEmpty then mixed else type

/-- The mark, if it is there, and what follows. -/
def mark (m : Text) (t : Text) : Text × Text :=
  match Text.after? m t with
  | some rest => (m, rest)
  | none => ([], t)

/-- The scope in front of a parameter, if there is one, and what follows it and its blanks. -/
def promotion (t : Text) : Option Scope × Text :=
  match Scope.all.findSome? fun s => (Text.keyword? s.keyword t).map fun rest => (s, rest) with
  | some (s, rest) => (some s, skipBlanks rest)
  | none => (none, t)

/-- The default of a parameter, from the `=` to the end. No default is fine, any other text is not. -/
def parameterDefault? : Text → Option (Option Text)
  | [] => some none
  | b :: value => if b = ascii '=' then (Text.visible? value).map some else none

/-- The parameter that a piece of code without comments is. -/
def parameter? (code : Text) : Option TypedVar := do
  let (scope, t) := promotion (skipBlanks code)
  let (type, t) := Text.type t
  let (reference, t) := mark (utf8 "&") (skipBlanks t)
  let (variadic, t) := mark (utf8 "...") (if reference.isEmpty then t else skipBlanks t)
  let t ← Text.after? (utf8 "$") t
  let (ident, t) ← ident? t
  let defaultValue ← parameterDefault? (skipBlanks t)
  return {
    name := reference ++ variadic ++ utf8 "$" ++ ident
    type := typeOrMixed type
    defaultValue
    scope
  }

/-- The parameter in a part of a parameter list, behind whose beginning `left` bytes of the source are
left. A part without code holds none. -/
def parameterIn (left : Nat) (part : Text) : Read (Option TypedVar) := do
  let stripped ← Read.ofScan (Scan.strip part) (left - part.length)
  let code := stripped.code
  if Text.isSpace code then return none
  match parameter? code with
  | some v => return some v
  | none =>
    let leading := code.length - (Text.trimStart code).length
    .error (.malformed ⟨.parameter (Text.trim code), left - leading⟩)

/-- Adds the parameters in the parts of a list to a method. -/
def addParts (m : Method) (left : Nat) : List Text → Read Method
  | [] => .ok m
  | part :: parts => do
    let m ← match ← parameterIn left part with
      | some v => Read.ofUnique (m.addParameter v)
      | none => pure m
    addParts m (left - (part.length + 1)) parts

/-- Adds the parameters between two brackets to a method; `more` bytes follow the list. -/
def addParameterList (m : Method) (list : Text) (more : Nat) : Read Method := do
  let parts ← Read.ofScan (Scan.split list) more
  addParts m (list.length + more) parts

end Grammar

end PhpClass
