import PhpClass.Proofs.TracedWord

/-!
# Headers step by step

The readers of a header as traced readings, each named for its reader. A loop asks whether less is left than before,
as its reader knows anyway.
-/

namespace PhpClass

open Text Grammar

namespace Traced

def namespaceWord (source : Text) (earlier : List (Option Text)) (t : Text) : Traced (List (Option Text) × Text) := do
  let (c, rest) ← comment source t
  match keyword? (utf8 "namespace") rest with
  | some rest =>
    come source rest
    return (earlier ++ [c], rest)
  | none =>
    let rest ← skipStatement source rest
    if _h : rest.length < t.length then namespaceWord source (earlier ++ [c]) rest
    else lift (Read.expect .namespaceDecl rest)
termination_by t.length

def namespaceName (source t : Text) : Traced (Element Text × Text) := do
  let (comments, rest) ← namespaceWord source [] t
  let (name, rest) ← statement source false .namespaceName rest
  let (trailing, rest) ← trailing source rest
  return (⟨name, joinComments? comments, trailing⟩, rest)

def importName (source : Text) (c : Option Text) (t : Text) : Traced (Element Text × Text) := do
  let (name, rest) ← statement source false .importName t
  let (trailing, rest) ← trailing source rest
  return (⟨name, c, trailing⟩, rest)

def imports (source t : Text) : Traced (List (Element Text) × Option Text × Text) := do
  let (c, rest) ← comment source t
  match keyword? (utf8 "use") rest with
  | none => return ([], c, rest)
  | some rest =>
    come source rest
    let (i, rest) ← importName source c rest
    if _h : rest.length < t.length then
      let (more, pending, rest) ← imports source rest
      return (i :: more, pending, rest)
    else lift (Read.expect .importName rest)
termination_by t.length

def classSignature (source t : Text) : Traced (ClassSignature × Text) := do
  let (kind, rest) := classKind t
  come source rest
  let rest ← reach source (classWord rest)
  let (name, rest) ← ident source .className (skipBlanks rest)
  return (⟨name, kind⟩, rest)

def parentName (source : Text) (before : Option Text) (t : Text) : Traced (Element Text × Text) := do
  let (behind, rest) ← comment source t
  let (parent, rest) ← name source .parentName rest
  let (trailing, rest) ← trailing source rest
  return (⟨parent, joinComments? [before, behind], trailing⟩, rest)

def extendsClause (source t : Text) : Traced ((Option (Element Text) × Option Text) × Text) := do
  let (before, rest) ← comment source t
  match keyword? (utf8 "extends") rest with
  | some rest =>
    come source rest
    let (parent, rest) ← parentName source before rest
    let (behind, rest) ← comment source rest
    return ((some parent, behind), rest)
  | none => return ((none, before), rest)

def interfaceName (source t : Text) : Traced (Interfaces × Text) := do
  let (before, rest) ← comment source t
  let (name, rest) ← name source .interfaceName rest
  let (trailing, rest) ← trailing source rest
  let (behind, rest) ← comment source rest
  return (⟨[name], [before, behind], [trailing]⟩, rest)

def interfaces (source t : Text) : Traced (Interfaces × Text) := do
  let (i, rest) ← interfaceName source t
  match after? (utf8 ",") rest with
  | none => return (i, rest)
  | some behind =>
    come source behind
    let (trailing, rest) ← trailing source behind
    if _h : rest.length < t.length then
      let (more, rest) ← interfaces source rest
      return ((i.append { trailing := [trailing] }).append more, rest)
    else lift (Read.expect .interfaceName rest)
termination_by t.length

def implementsClause (source t : Text) : Traced (Interfaces × Text) :=
  match keyword? (utf8 "implements") t with
  | some rest => do
    come source rest
    interfaces source rest
  | none => return ({}, t)

def header (source t : Text) : Traced (ClassFile × Text) := do
  let (namespaceName, rest) ← namespaceName source t
  let (imports, pending, rest) ← imports source rest
  let (signature, rest) ← classSignature source rest
  let (behindName, rest) ← trailing source rest
  let ((parent, comment), rest) ← extendsClause source rest
  let (interfaces, rest) ← implementsClause source rest
  let rest ← reach source (bodyStart rest)
  let (behindBrace, rest) ← trailing source rest
  return ({
    namespaceName
    imports
    signature := {
      payload := signature
      commentBefore := joinComments? (pending :: comment :: interfaces.comments)
      trailingComment := (behindName :: interfaces.trailing ++ [behindBrace]).findSome? id
    }
    parent
    interfaces := interfaces.names
  }, rest)

end Traced

namespace Keeps

variable {source t rest : Text}

theorem namespaceWord (ht : Ahead source t) (earlier : List (Option Text)) :
    Keeps (Leaves source) (Traced.namespaceWord source earlier t) (Grammar.namespaceWord earlier t) := by
  -- on what is left, which is also why the loop always goes on
  induction h : t.length using Nat.strongRecOn generalizing t earlier with
  | ind n ih =>
    rw [Traced.namespaceWord, namespaceWord_eq]
    refine (comment ht).bind ?_
    rintro ⟨c, rest⟩ hc hrest
    dsimp only
    cases hk : keyword? (utf8 "namespace") rest with
    | some behind =>
      have hbehind := ahead_of_keyword? (by decide) hrest hk
      exact arrive hbehind
    | none =>
      refine (skipStatement hrest).bind ?_
      intro last hs hlast
      have hlt := Nat.lt_of_lt_of_le (skipStatement_length hs) (comment_suffix hc).length_le
      rw [dif_pos hlt]
      exact ih _ (h ▸ hlt) hlast _ rfl

theorem namespaceName (ht : Ahead source t) :
    Keeps (Leaves source) (Traced.namespaceName source t) (Grammar.namespaceName t) := by
  refine (namespaceWord ht []).bind ?_
  rintro ⟨comments, rest⟩ - hword
  refine (statement hword false .namespaceName).bind ?_
  rintro ⟨name, rest⟩ - hname
  exact (trailing hname).bind_ok fun hrest => pure hrest

theorem importName (ht : Ahead source t) (c : Option Text) :
    Keeps (Leaves source) (Traced.importName source c t) (Grammar.importName c t) := by
  refine (statement ht false .importName).bind ?_
  rintro ⟨name, rest⟩ - hname
  exact (trailing hname).bind_ok fun hrest => pure hrest

theorem imports (ht : Ahead source t) :
    Keeps (fun r => Ahead source r.2.2) (Traced.imports source t) (Grammar.imports t) := by
  induction h : t.length using Nat.strongRecOn generalizing t with
  | ind n ih =>
    rw [Traced.imports, imports_eq]
    refine (comment ht).bind ?_
    rintro ⟨c, rest⟩ hc hrest
    dsimp only
    cases hk : keyword? (utf8 "use") rest with
    | none => exact pure hrest
    | some behind =>
      have hbehind := ahead_of_keyword? (by decide) hrest hk
      refine come hbehind ((importName hbehind c).bind ?_)
      rintro ⟨i, last⟩ hi hlast
      have hlt : last.length < t.length := by
        have hle := (importName_suffix hi).length_le
        have hword := keyword?_length (by decide) hk
        have hc := (comment_suffix hc).length_le
        omega
      dsimp only
      rw [dif_pos hlt]
      refine (ih _ (h ▸ hlt) hlast rfl).bind ?_
      rintro ⟨more, pending, final⟩ - hfinal
      exact pure hfinal

theorem classKind_ahead (ht : Ahead source t) : Ahead source (classKind t).2 := by
  unfold classKind
  split
  · next hk => exact skipBlanks_ahead (ahead_of_keyword? (by decide) ht hk)
  · split
    · next hk => exact skipBlanks_ahead (ahead_of_keyword? (by decide) ht hk)
    · exact skipBlanks_ahead ht

theorem classSignature (ht : Ahead source t) :
    Keeps (Leaves source) (Traced.classSignature source t) (Grammar.classSignature t) := by
  have hkind := classKind_ahead ht
  refine come hkind ((reach fun rest hrest => ?_).bind ?_)
  · unfold classWord at hrest
    split at hrest
    · next hk =>
      cases hrest
      exact ahead_of_keyword? (by decide) hkind hk
    · cases hrest
  · rintro rest - hword
    refine (ident (skipBlanks_ahead hword) .className).bind ?_
    rintro ⟨name, rest⟩ - hname
    exact pure hname

theorem parentName (ht : Ahead source t) (before : Option Text) :
    Keeps (Leaves source) (Traced.parentName source before t) (Grammar.parentName before t) := by
  refine (comment ht).bind ?_
  rintro ⟨behind, rest⟩ - hrest
  refine (name hrest .parentName).bind ?_
  rintro ⟨parent, rest⟩ - hname
  exact (trailing hname).bind_ok fun hrest => pure hrest

theorem extendsClause (ht : Ahead source t) :
    Keeps (Leaves source) (Traced.extendsClause source t) (Grammar.extendsClause t) := by
  refine (comment ht).bind ?_
  rintro ⟨before, rest⟩ - hrest
  dsimp only
  cases hk : keyword? (utf8 "extends") rest with
  | none => exact pure hrest
  | some behind =>
    have hbehind := ahead_of_keyword? (by decide) hrest hk
    refine come hbehind ((parentName hbehind before).bind ?_)
    rintro ⟨parent, rest⟩ - hparent
    refine (comment hparent).bind ?_
    rintro ⟨behind, rest⟩ - hrest
    exact pure hrest

theorem interfaceName (ht : Ahead source t) :
    Keeps (Leaves source) (Traced.interfaceName source t) (Grammar.interfaceName t) := by
  refine (comment ht).bind ?_
  rintro ⟨before, rest⟩ - hrest
  refine (name hrest .interfaceName).bind ?_
  rintro ⟨name, rest⟩ - hname
  refine (trailing hname).bind_ok fun hrest => (comment hrest).bind ?_
  rintro ⟨behind, rest⟩ - hrest
  exact pure hrest

theorem interfaces (ht : Ahead source t) :
    Keeps (Leaves source) (Traced.interfaces source t) (Grammar.interfaces t) := by
  induction h : t.length using Nat.strongRecOn generalizing t with
  | ind n ih =>
    rw [Traced.interfaces, interfaces_eq]
    refine (interfaceName ht).bind ?_
    rintro ⟨i, rest⟩ hi hrest
    dsimp only
    cases hcomma : after? (utf8 ",") rest with
    | none => exact pure hrest
    | some behind =>
      have hbehind : Ahead source behind := hrest.trans (after?_ahead (by decide) hrest.utf8 hcomma)
      refine come hbehind ((trailing hbehind).bind_ok fun htrailing => ?_)
      have hlt : (Scan.trailing behind).2.length < t.length := by
        have hone : (utf8 ",").length = 1 := by decide
        have hle := (interfaceName_suffix hi).length_le
        have htr := (Scan.trailing_suffix behind).length_le
        rw [after?_eq_some.1 hcomma, List.length_append] at hle
        omega
      dsimp only
      rw [dif_pos hlt]
      refine (ih _ (h ▸ hlt) htrailing rfl).bind ?_
      rintro ⟨more, last⟩ - hlast
      exact pure hlast

theorem implementsClause (ht : Ahead source t) :
    Keeps (Leaves source) (Traced.implementsClause source t) (Grammar.implementsClause t) := by
  unfold Traced.implementsClause Grammar.implementsClause
  cases hk : keyword? (utf8 "implements") t with
  | none => exact pure ht
  | some rest =>
    have hrest := ahead_of_keyword? (by decide) ht hk
    exact come hrest (interfaces hrest)

theorem header (ht : Ahead source t) : Keeps (Leaves source) (Traced.header source t) (Grammar.header t) := by
  refine (namespaceName ht).bind ?_
  rintro ⟨namespaceName, rest⟩ - hrest
  refine (imports hrest).bind ?_
  rintro ⟨imports, pending, rest⟩ - hrest
  refine (classSignature hrest).bind ?_
  rintro ⟨signature, rest⟩ - hrest
  refine (trailing hrest).bind_ok fun hrest => (extendsClause hrest).bind ?_
  rintro ⟨⟨parent, comment⟩, rest⟩ - hrest
  refine (implementsClause hrest).bind ?_
  rintro ⟨interfaces, rest⟩ - hrest
  refine (reach fun last hlast => ?_).bind ?_
  · unfold bodyStart at hlast
    split at hlast
    · next hopen =>
      cases hlast
      exact hrest.trans (after?_ahead (by decide) hrest.utf8 hopen)
    · cases hlast
  · rintro rest - hrest
    exact (trailing hrest).bind_ok fun hrest => pure hrest

end Keeps

end PhpClass
