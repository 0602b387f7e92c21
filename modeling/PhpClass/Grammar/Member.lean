import PhpClass.Grammar.Modifiers
import PhpClass.Grammar.Parameter
import PhpClass.Scan.Bracket

/-!
# Members

The words at the front of a member decide its kind. What follows them is read once the kind is known,
and the line comment behind a member belongs to it.

Reading a member leaves a proper rest of the text (`member_suffix`, `member_length`), which is why a
class body can be read to its end.
-/

namespace PhpClass

namespace Grammar

/-! ## Kinds -/

/-- How a member begins. -/
inductive Head where
  | property (modifiers : Modifiers) (type : Text)
  | constant (modifiers : Modifiers)
  | method (modifiers : Modifiers)
  | traitUse
  deriving DecidableEq, Repr

/-- Words that can stand where the type of a property would but are none. -/
def notTypes : List Text :=
  ["function", "const", "use", "abstract", "final", "static", "var", "readonly"].map utf8

/-- Modifiers, an optional type, and the `$` of the name. -/
def propertyHead? (t : Text) : Option (Head × Text) :=
  let (modifiers, t) := Modifiers.read Modifier.ofProperty t
  let (type, t) := Text.type t
  if notTypes.contains type then none
  else (Text.after? (utf8 "$") (skipBlanks t)).map fun rest => (.property modifiers type, rest)

/-- A scope and `const`. -/
def constantHead? (t : Text) : Option (Head × Text) :=
  let (modifiers, t) := Modifiers.read Modifier.ofConstant t
  (Text.keyword? (utf8 "const") t).map fun rest => (.constant modifiers, rest)

/-- Modifiers and `function`. -/
def methodHead? (t : Text) : Option (Head × Text) :=
  let (modifiers, t) := Modifiers.read Modifier.ofMethod t
  (Text.keyword? (utf8 "function") t).map fun rest => (.method modifiers, rest)

/-- The word `use`. -/
def traitHead? (t : Text) : Option (Head × Text) :=
  (Text.keyword? (utf8 "use") t).map fun rest => (.traitUse, rest)

/-- The head of a member, and what follows it. -/
def head? (t : Text) : Option (Head × Text) :=
  (propertyHead? t).or <| (constantHead? t).or <| (methodHead? t).or <| traitHead? t

/-! ## Declarations -/

/-- The end of a property: a `;`, in front of which a default may stand. -/
def propertyEnd (t : Text) : Read (Option Text × Text) :=
  match t with
  | [] => Read.expect .propertyEnd t
  | b :: rest =>
    if b = ascii '=' then do
      let (value, rest) ← statement true .propertyValue rest
      return (some value, rest)
    else if b = ascii ';' then .ok (none, rest)
    else Read.expect .propertyEnd t

/-- A property behind its `$`. -/
def property (modifiers : Modifiers) (type t : Text) : Read (TypedVar × Text) := do
  let (word, rest) ← ident .propertyName t
  let (defaultValue, rest) ← propertyEnd (skipBlanks rest)
  return ({
    name := utf8 "$" ++ word
    type := typeOrMixed type
    defaultValue
    scope := some (modifiers.scope.getD .pub)
    isStatic := modifiers.isStatic
  }, rest)

/-- What follows the `=` behind the name of a constant. -/
def equals (t : Text) : Read Text :=
  match Text.after? (utf8 "=") t with
  | some rest => .ok rest
  | none => Read.expect .constantEquals t

/-- A constant behind `const`. -/
def constant (modifiers : Modifiers) (t : Text) : Read (Constant × Text) := do
  let (name, rest) ← ident .constantName (skipBlanks t)
  let rest ← equals (skipBlanks rest)
  let (value, rest) ← statement true .constantValue rest
  return (⟨name, value, modifiers.scope.getD .pub⟩, rest)

/-- A parameter list with its brackets. -/
def parameterList (t : Text) : Read (Text × Text) :=
  if t.head? = some (ascii '(') then Read.ofScan (Scan.bracketed t)
  else Read.expect .parameterList t

/-- What a return type ends in front of. -/
def endsReturnType (b : UInt8) : Bool := b == Byte.openBrace || b == ascii ';' || b == ascii '/'

/-- A required return type. -/
def typeName (t : Text) : Read (Text × Text) :=
  let (text, rest) := Text.splitWhile (fun b => !endsReturnType b) t
  match Text.visible? text with
  | some type => .ok (type, rest)
  | none => Read.expect .returnType t

/-- A return type behind its `:`, if there is one, with the comments around it. -/
def returnType (t : Text) : Read (Option Text × Text × Text) :=
  match Text.after? (utf8 ":") t with
  | none => .ok (none, [], t)
  | some rest => do
    let (before, rest) ← Read.ofScan (Scan.gap rest)
    let (type, rest) ← typeName rest
    let (behind, rest) ← Read.ofScan (Scan.gap rest)
    return (some type, before ++ behind, rest)

/-- The body of a method, empty if a `;` stands in its place. -/
def methodBody (t : Text) : Read (Text × Text) :=
  match t with
  | [] => Read.expect .methodBody t
  | b :: rest =>
    if b = Byte.openBrace then Read.ofScan (Scan.bracketed t)
    else if b = ascii ';' then .ok ([], rest)
    else Read.expect .methodBody t

/-- A method behind `function`, with the comments between its parameters and its body on one line. -/
def method (modifiers : Modifiers) (t : Text) : Read ((Method × Option Text) × Text) := do
  let (name, rest) ← ident .methodName (skipBlanks t)
  let (list, rest) ← parameterList (skipBlanks rest)
  let m ← addParameterList {
    name
    scope := modifiers.scope.getD .pub
    isStatic := modifiers.isStatic
    isAbstract := modifiers.isAbstract
    isFinal := modifiers.isFinal
  } (Scan.insideBrackets list) (rest.length + 1)
  let (before, rest) ← Read.ofScan (Scan.gap rest)
  let (returnType, around, rest) ← returnType rest
  let (body, rest) ← methodBody rest
  let comment := (Scan.commentText? (before ++ around)).map fun c => Text.oneLine (Text.trim c)
  return (({ m with returnType, body }, comment), rest)

/-- The traits that are used, from behind `use` to the `;`. -/
def traitUse (t : Text) : Read (Text × Text) := do
  let (name, rest) ← statement false .traitName t
  if name.contains Byte.openBrace then Read.stop .traitAdaptation t else return (name, rest)

/-! ## Members with their comments -/

/-- A payload with the comment in front of it and the one behind it on its line. -/
def element {α : Type} (comment : Option Text) (payload : α) (t : Text) : Element α × Text :=
  let (trailing, rest) := Scan.trailing t
  (⟨payload, comment, trailing⟩, rest)

/-- Two comments on one line. -/
def sideBySide (a b : Option Text) : Option Text :=
  match a, b with
  | some a, some b => some (a ++ utf8 " " ++ b)
  | a, b => a.or b

/-- A member behind its head, with the comment in front of it. -/
def declaration (comment : Option Text) (head : Head) (t : Text) : Read (Member × Text) :=
  match head with
  | .property modifiers type => do
    let (v, rest) ← property modifiers type t
    let (e, rest) := element comment v rest
    return (.property e, rest)
  | .constant modifiers => do
    let (c, rest) ← constant modifiers t
    let (e, rest) := element comment c rest
    return (.constant e, rest)
  | .method modifiers => do
    let ((m, inSignature), rest) ← method modifiers t
    let (e, rest) := element comment m rest
    return (.method { e with trailingComment := sideBySide inSignature e.trailingComment }, rest)
  | .traitUse => do
    let (name, rest) ← traitUse t
    let (e, rest) := element comment name rest
    return (.traitUse e, rest)

/-- A member with the comment in front of it. -/
def member (comment : Option Text) (t : Text) : Read (Member × Text) :=
  match head? t with
  | some (head, rest) => declaration comment head rest
  | none => Read.stop .notAMember t

/-! ## Rests -/

theorem propertyHead?_suffix {t rest : Text} {head : Head} (h : propertyHead? t = some (head, rest)) :
    rest <:+ t ∧ rest.length < t.length := by
  unfold propertyHead? at h
  dsimp only at h
  split at h
  · cases h
  · obtain ⟨r, hr, he⟩ := Option.map_eq_some_iff.1 h
    cases he
    have hr := Text.after?_eq_some.1 hr
    have hs := (skipBlanks_suffix _).trans <|
      (Text.type_suffix _).trans (Modifiers.read_suffix Modifier.ofProperty t)
    rw [hr] at hs
    refine ⟨(List.suffix_append _ _).trans hs, ?_⟩
    have hle := hs.length_le
    have hone : (utf8 "$").length = 1 := by decide
    rw [List.length_append] at hle
    omega

theorem keyword?_suffix {word t rest : Text} (hword : word ≠ [])
    (h : Text.keyword? word t = some rest) : rest <:+ t ∧ rest.length < t.length := by
  rw [Text.keyword?_eq_append h]
  have := List.length_pos_iff.2 hword
  refine ⟨List.suffix_append _ _, ?_⟩
  rw [List.length_append]
  omega

theorem keywordHead?_suffix {allowed : List Modifier} {word t rest : Text} {head : Head}
    {make : Modifiers → Head} (hword : word ≠ [])
    (h : ((Text.keyword? word (Modifiers.read allowed t).2).map fun rest =>
      (make (Modifiers.read allowed t).1, rest)) = some (head, rest)) :
    rest <:+ t ∧ rest.length < t.length := by
  obtain ⟨r, hr, he⟩ := Option.map_eq_some_iff.1 h
  cases he
  obtain ⟨hs, hl⟩ := keyword?_suffix hword hr
  have hm := Modifiers.read_suffix allowed t
  exact ⟨hs.trans hm, Nat.lt_of_lt_of_le hl hm.length_le⟩

theorem head?_suffix {t rest : Text} {head : Head} (h : head? t = some (head, rest)) :
    rest <:+ t ∧ rest.length < t.length := by
  unfold head? at h
  rcases Option.or_eq_some_iff.1 h with h | ⟨_, h⟩
  · exact propertyHead?_suffix h
  rcases Option.or_eq_some_iff.1 h with h | ⟨_, h⟩
  · exact keywordHead?_suffix (by decide) h
  rcases Option.or_eq_some_iff.1 h with h | ⟨_, h⟩
  · exact keywordHead?_suffix (by decide) h
  · obtain ⟨r, hr, he⟩ := Option.map_eq_some_iff.1 h
    cases he
    exact keyword?_suffix (by decide) hr

theorem propertyEnd_suffix {t rest : Text} {v : Option Text} (h : propertyEnd t = .ok (v, rest)) :
    rest <:+ t := by
  unfold propertyEnd at h
  split at h
  · cases h
  · split at h
    · obtain ⟨⟨_, _⟩, hs, h⟩ := bind_eq_ok.1 h
      cases h
      exact (statement_suffix hs).trans (List.suffix_cons _ _)
    · split at h
      · cases h
        exact List.suffix_cons _ _
      · cases h

theorem property_suffix {ms : Modifiers} {type t rest : Text} {v : TypedVar}
    (h : property ms type t = .ok (v, rest)) : rest <:+ t := by
  obtain ⟨⟨_, _⟩, hi, h⟩ := bind_eq_ok.1 h
  obtain ⟨⟨_, _⟩, he, h⟩ := bind_eq_ok.1 h
  cases h
  exact (propertyEnd_suffix he).trans ((skipBlanks_suffix _).trans (ident_suffix hi))

theorem equals_suffix {t rest : Text} (h : equals t = .ok rest) : rest <:+ t := by
  unfold equals at h
  split at h
  · next hr => cases h; exact Text.after?_eq_some.1 hr ▸ List.suffix_append _ _
  · cases h

theorem constant_suffix {ms : Modifiers} {t rest : Text} {c : Constant}
    (h : constant ms t = .ok (c, rest)) : rest <:+ t := by
  obtain ⟨⟨_, _⟩, hi, h⟩ := bind_eq_ok.1 h
  obtain ⟨_, he, h⟩ := bind_eq_ok.1 h
  obtain ⟨⟨_, _⟩, hv, h⟩ := bind_eq_ok.1 h
  cases h
  exact (statement_suffix hv).trans <| (equals_suffix he).trans <|
    (skipBlanks_suffix _).trans <| (ident_suffix hi).trans (skipBlanks_suffix _)

theorem parameterList_suffix {t list rest : Text} (h : parameterList t = .ok (list, rest)) :
    rest <:+ t := by
  unfold parameterList at h
  split at h
  · exact Scan.bracketed_suffix (Read.ofScan_eq_ok.1 h)
  · cases h

theorem typeName_suffix {t type rest : Text} (h : typeName t = .ok (type, rest)) : rest <:+ t := by
  unfold typeName at h
  dsimp only at h
  split at h
  · cases h
    exact Text.splitWhile_suffix _ t
  · cases h

theorem returnType_suffix {t comments rest : Text} {type : Option Text}
    (h : returnType t = .ok (type, comments, rest)) : rest <:+ t := by
  unfold returnType at h
  split at h
  · cases h
    exact List.suffix_rfl
  · next hr =>
    obtain ⟨⟨_, _⟩, hb, h⟩ := bind_eq_ok.1 h
    obtain ⟨⟨_, _⟩, ht, h⟩ := bind_eq_ok.1 h
    obtain ⟨⟨_, _⟩, ha, h⟩ := bind_eq_ok.1 h
    cases h
    exact (Scan.gap_suffix (Read.ofScan_eq_ok.1 ha)).trans <| (typeName_suffix ht).trans <|
      (Scan.gap_suffix (Read.ofScan_eq_ok.1 hb)).trans <|
        Text.after?_eq_some.1 hr ▸ List.suffix_append _ _

theorem methodBody_suffix {t body rest : Text} (h : methodBody t = .ok (body, rest)) :
    rest <:+ t := by
  unfold methodBody at h
  split at h
  · cases h
  · split at h
    · exact Scan.bracketed_suffix (Read.ofScan_eq_ok.1 h)
    · split at h
      · cases h
        exact List.suffix_cons _ _
      · cases h

theorem method_suffix {ms : Modifiers} {t rest : Text} {m : Method × Option Text}
    (h : method ms t = .ok (m, rest)) : rest <:+ t := by
  obtain ⟨⟨_, _⟩, hi, h⟩ := bind_eq_ok.1 h
  obtain ⟨⟨_, _⟩, hl, h⟩ := bind_eq_ok.1 h
  obtain ⟨_, _, h⟩ := bind_eq_ok.1 h
  obtain ⟨⟨_, _⟩, hg, h⟩ := bind_eq_ok.1 h
  obtain ⟨⟨_, _, _⟩, hr, h⟩ := bind_eq_ok.1 h
  obtain ⟨⟨_, _⟩, hb, h⟩ := bind_eq_ok.1 h
  cases h
  exact (methodBody_suffix hb).trans <| (returnType_suffix hr).trans <|
    (Scan.gap_suffix (Read.ofScan_eq_ok.1 hg)).trans <| (parameterList_suffix hl).trans <|
      (skipBlanks_suffix _).trans <| (ident_suffix hi).trans (skipBlanks_suffix _)

theorem traitUse_suffix {t name rest : Text} (h : traitUse t = .ok (name, rest)) : rest <:+ t := by
  obtain ⟨⟨_, _⟩, hs, h⟩ := bind_eq_ok.1 h
  dsimp only at h
  split at h
  · cases h
  · cases h
    exact statement_suffix hs

theorem declaration_suffix {comment : Option Text} {head : Head} {t rest : Text} {m : Member}
    (h : declaration comment head t = .ok (m, rest)) : rest <:+ t := by
  unfold declaration at h
  split at h <;> obtain ⟨⟨_, _⟩, hd, h⟩ := bind_eq_ok.1 h <;> cases h <;>
    refine (Scan.trailing_suffix _).trans ?_
  · exact property_suffix hd
  · exact constant_suffix hd
  · exact method_suffix hd
  · exact traitUse_suffix hd

theorem member_suffix {comment : Option Text} {t rest : Text} {m : Member}
    (h : member comment t = .ok (m, rest)) : rest <:+ t := by
  unfold member at h
  split at h
  · next hh => exact (declaration_suffix h).trans (head?_suffix hh).1
  · cases h

theorem member_length {comment : Option Text} {t rest : Text} {m : Member}
    (h : member comment t = .ok (m, rest)) : rest.length < t.length := by
  unfold member at h
  split at h
  · next hh => exact Nat.lt_of_le_of_lt (declaration_suffix h).length_le (head?_suffix hh).2
  · cases h

end Grammar

end PhpClass
