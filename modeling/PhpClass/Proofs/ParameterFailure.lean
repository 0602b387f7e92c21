import PhpClass.Proofs.Header
import PhpClass.Proofs.ParameterComments

/-!
# Failures at parameters

A parameter that cannot be read is reported by the reader of parameters and passed on by the readers around it. All
other readers fail otherwise (`Read.FailsElsewhere`), so where reading a snippet or a file ends with such a failure, a
parameter list was being read, of a method that begins the snippet (`exists_list_of_onlyMember`) or stands in the class
body behind members that were read (`exists_list_of_source`).
-/

namespace PhpClass

open Text

/-- A parameter that cannot be read, in front of the last `left` bytes. -/
def Failure.atParameter (code : Text) (left : Nat) : Failure := .malformed ⟨.parameter code, left⟩

namespace Read

variable {α β : Type}

/-- A reading that does not fail at a parameter. -/
def FailsElsewhere (x : Read α) : Prop := ∀ code left, x ≠ .error (.atParameter code left)

theorem failsElsewhere_ok (a : α) : FailsElsewhere (.ok a) := fun _ _ h => nomatch h

theorem failsElsewhere_expect (what : Expected) (rest : Text) : FailsElsewhere (expect what rest : Read α) := by
  intro code left h
  cases h

theorem failsElsewhere_ofScan (result : Scan α) (more : Nat) : FailsElsewhere (ofScan result more) := by
  intro code left h
  cases result with
  | ok a => cases h
  | error e => cases h

theorem failsElsewhere_ofUnique (result : Except Duplicate α) : FailsElsewhere (ofUnique result) := by
  intro code left h
  cases result with
  | ok a => cases h
  | error d => cases h

/-- A failure at a parameter comes from the second reading if not from the first. -/
theorem FailsElsewhere.exists_of_bind {x : Read α} {f : α → Read β} {code : Text} {left : Nat} (hx : FailsElsewhere x)
    (h : x >>= f = .error (.atParameter code left)) : ∃ a, x = .ok a ∧ f a = .error (.atParameter code left) := by
  rcases bind_eq_error.1 h with hfail | hbehind
  · exact absurd hfail (hx code left)
  · exact hbehind

theorem FailsElsewhere.bind {x : Read α} {f : α → Read β} (hx : FailsElsewhere x) (hf : ∀ a, FailsElsewhere (f a)) :
    FailsElsewhere (x >>= f) := by
  intro code left h
  obtain ⟨a, -, ha⟩ := hx.exists_of_bind h
  exact hf a code left ha

/-- The failure is passed on. -/
theorem FailsElsewhere.error {x : Read α} {e : Failure} (hx : FailsElsewhere x) (h : x = .error e) :
    FailsElsewhere (.error e : Read β) := by
  intro code left he
  cases he
  exact hx code left h

end Read

namespace Grammar

open Read

/-! ## Words -/

theorem ident_elsewhere (what : Expected) (t : Text) : FailsElsewhere (ident what t) := by
  unfold ident
  split
  · exact failsElsewhere_ok _
  · exact failsElsewhere_expect _ _

theorem name_elsewhere (what : Expected) (t : Text) : FailsElsewhere (name what t) := by
  unfold name
  dsimp only
  split
  · exact failsElsewhere_expect _ _
  · exact failsElsewhere_ok _

theorem statement_elsewhere (strings : Bool) (what : Expected) (t : Text) :
    FailsElsewhere (statement strings what t) := by
  refine (failsElsewhere_ofScan _ _).bind ?_
  rintro ⟨text, rest⟩
  dsimp only
  split
  · exact failsElsewhere_ok _
  · exact failsElsewhere_expect _ _

theorem comment_elsewhere (t : Text) : FailsElsewhere (comment t) :=
  (failsElsewhere_ofScan _ _).bind fun _ => failsElsewhere_ok _

/-! ## Headers -/

theorem skipStatement_elsewhere (t : Text) : FailsElsewhere (skipStatement t) := by
  unfold skipStatement
  split
  · exact failsElsewhere_ok _
  · exact failsElsewhere_expect _ _

theorem namespaceWord_elsewhere (earlier : List (Option Text)) (t : Text) :
    FailsElsewhere (namespaceWord earlier t) := by
  fun_induction namespaceWord earlier t with
  | case1 earlier t e hc => exact (comment_elsewhere t).error hc
  | case2 => exact failsElsewhere_ok _
  | case3 earlier t c rest hc hk e hs => exact (skipStatement_elsewhere rest).error hs
  | case4 earlier t c rest hc hk rest' hs ih => exact ih

theorem namespaceName_elsewhere (t : Text) : FailsElsewhere (namespaceName t) :=
  (namespaceWord_elsewhere [] t).bind fun _ => (statement_elsewhere _ _ _).bind fun _ => failsElsewhere_ok _

theorem importName_elsewhere (c : Option Text) (t : Text) : FailsElsewhere (importName c t) :=
  (statement_elsewhere _ _ t).bind fun _ => failsElsewhere_ok _

theorem imports_elsewhere (t : Text) : FailsElsewhere (imports t) := by
  fun_induction imports t with
  | case1 t e hc => exact (comment_elsewhere t).error hc
  | case2 => exact failsElsewhere_ok _
  | case3 t c _ _ rest _ e hi => exact (importName_elsewhere c rest).error hi
  | case4 t c _ _ rest _ i last _ ih => exact ih.bind fun _ => failsElsewhere_ok _

theorem classSignature_elsewhere (t : Text) : FailsElsewhere (classSignature t) := by
  refine FailsElsewhere.bind ?_ fun _ => (ident_elsewhere _ _).bind fun _ => failsElsewhere_ok _
  unfold classWord
  split
  · exact failsElsewhere_ok _
  · exact failsElsewhere_expect _ _

theorem extendsClause_elsewhere (t : Text) : FailsElsewhere (extendsClause t) := by
  refine (comment_elsewhere t).bind ?_
  rintro ⟨before, rest⟩
  dsimp only
  split
  · refine FailsElsewhere.bind ?_ fun _ => (comment_elsewhere _).bind fun _ => failsElsewhere_ok _
    exact (comment_elsewhere _).bind fun _ => (name_elsewhere _ _).bind fun _ => failsElsewhere_ok _
  · exact failsElsewhere_ok _

theorem interfaceName_elsewhere (t : Text) : FailsElsewhere (interfaceName t) :=
  (comment_elsewhere t).bind fun _ => (name_elsewhere _ _).bind fun _ =>
    (comment_elsewhere _).bind fun _ => failsElsewhere_ok _

theorem interfaces_elsewhere (t : Text) : FailsElsewhere (interfaces t) := by
  fun_induction interfaces t with
  | case1 t e hi => exact (interfaceName_elsewhere t).error hi
  | case2 => exact failsElsewhere_ok _
  | case3 t i _ _ behind _ comma ih => exact ih.bind fun _ => failsElsewhere_ok _

theorem implementsClause_elsewhere (t : Text) : FailsElsewhere (implementsClause t) := by
  unfold implementsClause
  split
  · exact interfaces_elsewhere _
  · exact failsElsewhere_ok _

theorem bodyStart_elsewhere (t : Text) : FailsElsewhere (bodyStart t) := by
  unfold bodyStart
  split
  · exact failsElsewhere_ok _
  · exact failsElsewhere_expect _ _

theorem header_elsewhere (t : Text) : FailsElsewhere (header t) :=
  (namespaceName_elsewhere t).bind fun _ => (imports_elsewhere _).bind fun _ =>
    (classSignature_elsewhere _).bind fun _ => (extendsClause_elsewhere _).bind fun _ =>
      (implementsClause_elsewhere _).bind fun _ => (bodyStart_elsewhere _).bind fun _ => failsElsewhere_ok _

/-! ## Members -/

theorem property_elsewhere (ms : Modifiers) (type t : Text) : FailsElsewhere (property ms type t) := by
  refine (ident_elsewhere _ t).bind fun _ => FailsElsewhere.bind ?_ fun _ => failsElsewhere_ok _
  unfold propertyEnd
  split
  · exact failsElsewhere_expect _ _
  · split
    · exact (statement_elsewhere _ _ _).bind fun _ => failsElsewhere_ok _
    · split
      · exact failsElsewhere_ok _
      · exact failsElsewhere_expect _ _

theorem constant_elsewhere (ms : Modifiers) (t : Text) : FailsElsewhere (constant ms t) := by
  refine (ident_elsewhere _ _).bind fun _ => FailsElsewhere.bind ?_ fun _ =>
    (statement_elsewhere _ _ _).bind fun _ => failsElsewhere_ok _
  unfold equals
  split
  · exact failsElsewhere_ok _
  · exact failsElsewhere_expect _ _

theorem traitUse_elsewhere (t : Text) : FailsElsewhere (traitUse t) := by
  refine (statement_elsewhere _ _ t).bind ?_
  rintro ⟨name, rest⟩
  dsimp only
  split
  · intro code left h
    cases h
  · exact failsElsewhere_ok _

theorem parameterList_elsewhere (t : Text) : FailsElsewhere (parameterList t) := by
  unfold parameterList
  split
  · exact failsElsewhere_ofScan _ _
  · exact failsElsewhere_expect _ _

theorem returnType_elsewhere (t : Text) : FailsElsewhere (returnType t) := by
  unfold returnType
  split
  · exact failsElsewhere_ok _
  · refine (failsElsewhere_ofScan _ _).bind fun _ => FailsElsewhere.bind ?_ fun _ =>
      (failsElsewhere_ofScan _ _).bind fun _ => failsElsewhere_ok _
    unfold typeName
    dsimp only
    split
    · exact failsElsewhere_ok _
    · exact failsElsewhere_expect _ _

theorem methodBody_elsewhere (t : Text) : FailsElsewhere (methodBody t) := by
  unfold methodBody
  split
  · exact failsElsewhere_expect _ _
  · split
    · exact failsElsewhere_ofScan _ _
    · split
      · exact failsElsewhere_ok _
      · exact failsElsewhere_expect _ _

/-! ## Where a list is read -/

variable {code : Text} {left : Nat}

/-- A method fails at a parameter where its list is read. -/
theorem exists_list_of_method {ms : Modifiers} {t : Text} (h : method ms t = .error (.atParameter code left)) :
    ∃ name u list behind, ident .methodName (skipBlanks t) = .ok (name, u) ∧
      parameterList (skipBlanks u) = .ok (list, behind) ∧
      addParameterList (withoutParameters ms name) (Scan.insideBrackets list) (behind.length + 1) =
        .error (.atParameter code left) := by
  obtain ⟨⟨name, u⟩, hname, h⟩ := (ident_elsewhere _ _).exists_of_bind h
  obtain ⟨⟨list, behind⟩, hlist, h⟩ := (parameterList_elsewhere _).exists_of_bind h
  refine ⟨name, u, list, behind, hname, hlist, ?_⟩
  rcases bind_eq_error.1 h with hadd | ⟨m, -, h⟩
  · exact hadd
  · refine absurd h (FailsElsewhere.bind (failsElsewhere_ofScan _ _) ?_ code left)
    exact fun _ => (returnType_elsewhere _).bind fun _ => (methodBody_elsewhere _).bind fun _ => failsElsewhere_ok _

/-- The text is read up to a parameter list of a method and fails at a parameter in it. -/
def FailsInList (t code : Text) (left : Nat) (list behind : Text) : Prop :=
  ∃ c ms name rest, ReadsUpTo c ms name t rest ∧ parameterList rest = .ok (list, behind) ∧
    addParameterList (withoutParameters ms name) (Scan.insideBrackets list) (behind.length + 1) =
      .error (.atParameter code left)

theorem exists_list_of_member {c : Option Text} {t u : Text} (hc : comment t = .ok (c, u))
    (h : member c u = .error (.atParameter code left)) : ∃ list behind, FailsInList t code left list behind := by
  unfold member at h
  split at h
  · next head v hh =>
    unfold declaration at h
    split at h
    · obtain ⟨_, -, h⟩ := (property_elsewhere _ _ _).exists_of_bind h
      cases h
    · obtain ⟨_, -, h⟩ := (constant_elsewhere _ _).exists_of_bind h
      cases h
    · next ms =>
      rcases bind_eq_error.1 h with hmethod | ⟨_, -, h⟩
      · obtain ⟨name, w, list, behind, hname, hlist, hadd⟩ := exists_list_of_method hmethod
        exact ⟨list, behind, c, ms, name, _, ⟨u, v, w, hc, hh, hname, rfl⟩, hlist, hadd⟩
      · cases h
    · obtain ⟨_, -, h⟩ := (traitUse_elsewhere _).exists_of_bind h
      cases h
  · cases h

theorem exists_list_of_onlyMember {t : Text} (h : onlyMember t = .error (.atParameter code left)) :
    ∃ list behind, FailsInList t code left list behind := by
  obtain ⟨⟨c, u⟩, hc, h⟩ := (comment_elsewhere t).exists_of_bind h
  rcases bind_eq_error.1 h with hmember | ⟨⟨m, v⟩, -, h⟩
  · exact exists_list_of_member hc hmember
  · obtain ⟨⟨_, w⟩, -, h⟩ := (comment_elsewhere v).exists_of_bind h
    dsimp only at h
    split at h
    · cases h
    · cases h

/-- Of a class body whole members are read, and then the rest. -/
inductive MembersTo : Text → Text → Prop
  | nil {t : Text} : MembersTo t t
  | cons {c : Option Text} {m : Member} {t u v rest : Text} (hc : comment t = .ok (c, u))
      (hclose : after? [Byte.closeBrace] u = none) (hm : member c u = .ok (m, v)) (h : MembersTo v rest) :
      MembersTo t rest

theorem exists_list_of_body {content : ClassContent} {t : Text}
    (h : body content t = .error (.atParameter code left)) :
    ∃ u list behind, MembersTo t u ∧ FailsInList u code left list behind := by
  fun_induction body content t with
  | case1 content t e hc => exact absurd h ((comment_elsewhere t).error hc code left)
  | case2 => cases h
  | case3 => cases h
  | case4 content t c u hc hclose hne e hm =>
    cases h
    obtain ⟨list, behind, hlist⟩ := exists_list_of_member hc hm
    exact ⟨t, list, behind, .nil, hlist⟩
  | case5 content t c u hc hclose hne m v hm ih =>
    obtain ⟨content', -, h⟩ := (failsElsewhere_ofUnique _).exists_of_bind h
    obtain ⟨w, list, behind, hw, hlist⟩ := ih content' h
    exact ⟨w, list, behind, .cons hc hclose hm hw, hlist⟩

/-- In a source with a class file whole members are read up to this rest. -/
def BodyTo (source rest : Text) : Prop :=
  ∃ t f u, beyond? (utf8 "<?php") source = some t ∧ header t = .ok (f, u) ∧ MembersTo u rest

theorem exists_list_of_source {source : Text} (h : Grammar.source source = .error (.atParameter code left)) :
    ∃ t list behind, BodyTo source t ∧ FailsInList t code left list behind := by
  unfold Grammar.source at h
  split at h
  · cases h
  · next t ht =>
    rcases bind_eq_error.1 h with hfile | ⟨_, -, h⟩
    · obtain ⟨⟨f, u⟩, hu, hfile⟩ := (header_elsewhere t).exists_of_bind hfile
      rcases bind_eq_error.1 hfile with hbody | ⟨_, -, h⟩
      · obtain ⟨v, list, behind, hv, hlist⟩ := exists_list_of_body hbody
        exact ⟨v, list, behind, ⟨t, f, u, ht, hu, hv⟩, hlist⟩
      · cases h
    · cases h

/-! ## Rests -/

theorem ReadsUpTo.suffix {c : Option Text} {ms : Modifiers} {name source rest : Text}
    (h : ReadsUpTo c ms name source rest) : rest <:+ source := by
  obtain ⟨t, u, v, hc, hh, hi, rfl⟩ := h
  have hname := (ident_suffix hi).trans (skipBlanks_suffix u)
  exact ((skipBlanks_suffix v).trans hname).trans ((head?_suffix hh).1.trans (comment_suffix hc))

theorem MembersTo.suffix {t rest : Text} (h : MembersTo t rest) : rest <:+ t := by
  induction h with
  | nil => exact List.suffix_rfl
  | cons hc _ hm _ ih => exact ih.trans ((member_suffix hm).trans (comment_suffix hc))

theorem BodyTo.suffix {source rest : Text} (h : BodyTo source rest) : rest <:+ source := by
  obtain ⟨t, f, u, ht, hu, hrest⟩ := h
  obtain ⟨-, -, hsuffix, -⟩ := header_eq_ok hu
  exact hrest.suffix.trans (hsuffix.trans ((List.suffix_append _ _).trans (beyond?_suffix ht)))

end Grammar

end PhpClass
