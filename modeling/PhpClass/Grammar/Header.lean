import PhpClass.ClassFile.Basic
import PhpClass.Grammar.Word
import PhpClass.Scan.Gap

/-!
# Headers

The parts of a file in front of the class body, in their order: the namespace, the imports, the class
with its modifier, the class that it extends, the interfaces that it implements, and the brace that
opens the body.

Comments in front of the namespace and of an import belong to it. Those between the last import and the
brace belong to the class or to the extended class, and of the line comments behind the class name, the
interfaces, their commas and the brace the first is kept as the trailing comment of the class.
-/

namespace PhpClass

namespace Grammar

/-- The gap in front of the next word: what is kept of its comments, and the rest. -/
def comment (t : Text) : Read (Option Text × Text) := do
  let (comments, rest) ← Read.ofScan (Scan.gap t)
  return (Scan.commentText? comments, rest)

theorem comment_suffix {t rest : Text} {c : Option Text} (h : comment t = .ok (c, rest)) :
    rest <:+ t := by
  obtain ⟨⟨_, _⟩, hg, h⟩ := bind_eq_ok.1 h
  cases h
  exact Scan.gap_suffix (Read.ofScan_eq_ok.1 hg)

/-! ## Namespace and imports -/

/-- What follows a statement in front of the namespace. -/
def skipStatement (t : Text) : Read Text :=
  match Scan.afterTerminator true (ascii ';') 0 t with
  | .ok rest => .ok rest
  | .error _ => Read.expect .namespaceDecl t

theorem skipStatement_suffix {t rest : Text} (h : skipStatement t = .ok rest) : rest <:+ t := by
  unfold skipStatement at h
  split at h
  · next hr => cases h; exact (List.suffix_cons _ _).trans (Scan.afterTerminator_suffix hr)
  · cases h

theorem skipStatement_length {t rest : Text} (h : skipStatement t = .ok rest) :
    rest.length < t.length := by
  unfold skipStatement at h
  split at h
  · next hr => cases h; exact (Scan.afterTerminator_suffix hr).length_le
  · cases h

/-- What follows the word `namespace`, and the comments in front of it, those among earlier statements
included. -/
def namespaceWord (earlier : List (Option Text)) (t : Text) : Read (List (Option Text) × Text) :=
  match _hc : comment t with
  | .error e => .error e
  | .ok (c, rest) =>
    match Text.keyword? (utf8 "namespace") rest with
    | some rest => .ok (earlier ++ [c], rest)
    | none =>
      match _hs : skipStatement rest with
      | .error e => .error e
      | .ok rest => namespaceWord (earlier ++ [c]) rest
termination_by t.length
decreasing_by exact Nat.lt_of_lt_of_le (skipStatement_length ‹_›) (comment_suffix ‹_›).length_le

/-- One round, and what follows it. -/
theorem namespaceWord_eq (earlier : List (Option Text)) (t : Text) : namespaceWord earlier t = (do
    let (c, rest) ← comment t
    match Text.keyword? (utf8 "namespace") rest with
    | some rest => return (earlier ++ [c], rest)
    | none => do
      let rest ← skipStatement rest
      namespaceWord (earlier ++ [c]) rest) := by
  rw [namespaceWord]
  cases comment t with
  | error e => rfl
  | ok r =>
    dsimp only [bind, Except.bind]
    cases Text.keyword? (utf8 "namespace") r.2 with
    | some rest => rfl
    | none => cases skipStatement r.2 <;> rfl

/-- The namespace with its comments. -/
def namespaceName (t : Text) : Read (Element Text × Text) := do
  let (comments, rest) ← namespaceWord [] t
  let (name, rest) ← statement false .namespaceName rest
  let (trailing, rest) := Scan.trailing rest
  return (⟨name, joinComments? comments, trailing⟩, rest)

/-- An import behind `use`, with the comment in front of it. -/
def importName (comment : Option Text) (t : Text) : Read (Element Text × Text) := do
  let (name, rest) ← statement false .importName t
  let (trailing, rest) := Scan.trailing rest
  return (⟨name, comment, trailing⟩, rest)

theorem importName_suffix {c : Option Text} {t rest : Text} {e : Element Text}
    (h : importName c t = .ok (e, rest)) : rest <:+ t := by
  obtain ⟨⟨_, _⟩, hs, h⟩ := bind_eq_ok.1 h
  cases h
  exact (Scan.trailing_suffix _).trans (statement_suffix hs)

theorem keyword?_length {word t rest : Text} (hword : word ≠ [])
    (h : Text.keyword? word t = some rest) : rest.length < t.length := by
  rw [Text.keyword?_eq_append h, List.length_append]
  have := List.length_pos_iff.2 hword
  omega

/-- The imports, the comment behind the last of them, and what follows that. -/
def imports (t : Text) : Read (List (Element Text) × Option Text × Text) :=
  match _hc : comment t with
  | .error e => .error e
  | .ok (c, rest) =>
    match _hk : Text.keyword? (utf8 "use") rest with
    | none => .ok ([], c, rest)
    | some rest =>
      match _hi : importName c rest with
      | .error e => .error e
      | .ok (i, rest) => do
        let (more, pending, rest) ← imports rest
        return (i :: more, pending, rest)
termination_by t.length
decreasing_by
  exact Nat.lt_of_le_of_lt (importName_suffix ‹_›).length_le <|
    Nat.lt_of_lt_of_le (keyword?_length (show utf8 "use" ≠ [] by decide) ‹_›) (comment_suffix ‹_›).length_le

/-- One round, and what follows it. -/
theorem imports_eq (t : Text) : imports t = (do
    let (c, rest) ← comment t
    match Text.keyword? (utf8 "use") rest with
    | none => return ([], c, rest)
    | some rest => do
      let (i, rest) ← importName c rest
      let (more, pending, rest) ← imports rest
      return (i :: more, pending, rest)) := by
  rw [imports]
  cases comment t with
  | error e => rfl
  | ok r =>
    dsimp only [bind, Except.bind]
    cases Text.keyword? (utf8 "use") r.2 with
    | none => rfl
    | some rest =>
      dsimp only
      cases importName r.1 rest <;> rfl

/-! ## The class -/

/-- The modifier of a class, and what follows it and the blanks behind it. -/
def classKind (t : Text) : ClassKind × Text :=
  match Text.keyword? (utf8 "final") t with
  | some rest => (.final, skipBlanks rest)
  | none =>
    match Text.keyword? (utf8 "abstract") t with
    | some rest => (.abstract, skipBlanks rest)
    | none => (.normal, skipBlanks t)

/-- What follows the word `class`. -/
def classWord (t : Text) : Read Text :=
  match Text.keyword? (utf8 "class") t with
  | some rest => .ok rest
  | none => Read.expect .classDecl t

/-- The modifier and the name of the class. -/
def classSignature (t : Text) : Read (ClassSignature × Text) := do
  let (kind, rest) := classKind t
  let rest ← classWord rest
  let (name, rest) ← ident .className (skipBlanks rest)
  return (⟨name, kind⟩, rest)

/-- The class that is extended, behind `extends`, with the comments on both sides of that word. -/
def parentName (before : Option Text) (t : Text) : Read (Element Text × Text) := do
  let (behind, rest) ← comment t
  let (parent, rest) ← name .parentName rest
  let (trailing, rest) := Scan.trailing rest
  return (⟨parent, joinComments? [before, behind], trailing⟩, rest)

/-- The class that is extended, if there is one, and the comment that is left for the class. -/
def extendsClause (t : Text) : Read ((Option (Element Text) × Option Text) × Text) := do
  let (before, rest) ← comment t
  match Text.keyword? (utf8 "extends") rest with
  | some rest =>
    let (parent, rest) ← parentName before rest
    let (behind, rest) ← comment rest
    return ((some parent, behind), rest)
  | none => return ((none, before), rest)

/-- Names of interfaces, with the comments in front of and behind each, and the line comments behind
names and commas. -/
structure Interfaces where
  names : List Text := []
  comments : List (Option Text) := []
  trailing : List (Option Text) := []
  deriving DecidableEq, Repr

/-- One interface with the comments around it. -/
def interfaceName (t : Text) : Read (Interfaces × Text) := do
  let (before, rest) ← comment t
  let (name, rest) ← name .interfaceName rest
  let (trailing, rest) := Scan.trailing rest
  let (behind, rest) ← comment rest
  return (⟨[name], [before, behind], [trailing]⟩, rest)

theorem interfaceName_suffix {t rest : Text} {i : Interfaces}
    (h : interfaceName t = .ok (i, rest)) : rest <:+ t := by
  obtain ⟨⟨_, _⟩, hb, h⟩ := bind_eq_ok.1 h
  obtain ⟨⟨_, _⟩, hn, h⟩ := bind_eq_ok.1 h
  obtain ⟨⟨_, _⟩, ha, h⟩ := bind_eq_ok.1 h
  cases h
  exact (comment_suffix ha).trans <| (Scan.trailing_suffix _).trans <|
    (name_suffix hn).trans (comment_suffix hb)

/-- One list of interfaces behind another. -/
def Interfaces.append (a b : Interfaces) : Interfaces :=
  ⟨a.names ++ b.names, a.comments ++ b.comments, a.trailing ++ b.trailing⟩

/-- The interfaces behind `implements`. -/
def interfaces (t : Text) : Read (Interfaces × Text) :=
  match _hi : interfaceName t with
  | .error e => .error e
  | .ok (i, rest) =>
    match _ha : Text.after? (utf8 ",") rest with
    | none => .ok (i, rest)
    | some behind => do
      let comma : Interfaces := { trailing := [(Scan.trailing behind).1] }
      let (more, rest) ← interfaces (Scan.trailing behind).2
      return ((i.append comma).append more, rest)
termination_by t.length
decreasing_by
  have happ := Text.after?_eq_some.1 ‹Text.after? _ _ = some _›
  have hone : (utf8 ",").length = 1 := by decide
  have hle := (interfaceName_suffix ‹_›).length_le
  have htr := (Scan.trailing_suffix behind).length_le
  rw [happ, List.length_append] at hle
  omega

/-- One round, and what follows it. -/
theorem interfaces_eq (t : Text) : interfaces t = (do
    let (i, rest) ← interfaceName t
    match Text.after? (utf8 ",") rest with
    | none => return (i, rest)
    | some behind => do
      let (more, rest) ← interfaces (Scan.trailing behind).2
      return ((i.append { trailing := [(Scan.trailing behind).1] }).append more, rest)) := by
  rw [interfaces]
  cases interfaceName t with
  | error e => rfl
  | ok r =>
    dsimp only [bind, Except.bind]
    cases Text.after? (utf8 ",") r.2 <;> rfl

/-- The interfaces that are implemented, if there are any. -/
def implementsClause (t : Text) : Read (Interfaces × Text) :=
  match Text.keyword? (utf8 "implements") t with
  | some rest => interfaces rest
  | none => .ok ({}, t)

/-- What follows the brace that opens the class body. -/
def bodyStart (t : Text) : Read Text :=
  match Text.after? [Byte.openBrace] t with
  | some rest => .ok rest
  | none => Read.expect .bodyStart t

/-! ## The whole header -/

/-- A class file up to the opening brace of its class, from behind the open tag. -/
def header (t : Text) : Read (ClassFile × Text) := do
  let (namespaceName, rest) ← namespaceName t
  let (imports, pending, rest) ← imports rest
  let (signature, rest) ← classSignature rest
  let (behindName, rest) := Scan.trailing rest
  let ((parent, comment), rest) ← extendsClause rest
  let (interfaces, rest) ← implementsClause rest
  let rest ← bodyStart rest
  let (behindBrace, rest) := Scan.trailing rest
  return ({
    namespaceName
    imports
    signature := {
      payload := signature
      commentBefore := joinComments? (pending :: comment :: interfaces.comments)
      trailingComment := (behindName :: interfaces.trailing ++ [behindBrace]).findSome? id
    }
    parent
    interfaces := interfaces.names
  }, rest)

end Grammar

end PhpClass
