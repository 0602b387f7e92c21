import PhpClass.ClassFile.Layout
import PhpClass.Proofs.Comment
import PhpClass.Proofs.Head
import PhpClass.Proofs.Statement

/-!
# Headers

Each header that is read can be written: its names are such that they are read whole, and its comments such
that they are read back (`Grammar.header_eq_ok`). Behind a header the text goes on where the line comment of
its last name ends.
-/

namespace PhpClass

open Text

/-! ## Comments that are joined -/

theorem joinComments?_singleton (c : Option Text) : joinComments? [c] = c := by
  cases c with
  | none => rfl
  | some t => simp [joinComments?, join]

theorem joinComments?_cons_none {c : Option Text} {cs : List (Option Text)} (h : ∀ d ∈ cs, d = none) :
    joinComments? (c :: cs) = c := by
  have hnil : cs.filterMap id = [] := by
    rw [List.filterMap_eq_nil_iff]
    exact h
  unfold joinComments?
  cases c with
  | none => rw [List.filterMap_cons_none rfl, hnil]
  | some t =>
    have hone : (some t :: cs).filterMap id = [t] := congrArg (t :: ·) hnil
    rw [hone]
    exact congrArg some List.intercalate_singleton

theorem isSpace_join {t : Text} {ts : List Text} (h : isSpace t = false) :
    isSpace (join newline (t :: ts)) = false := by
  cases ts with
  | nil => simpa [join] using h
  | cons u ts =>
    have he : join newline (t :: u :: ts) = t ++ Byte.lineFeed :: join newline (u :: ts) := by
      simp [join, newline, List.intercalate_cons_cons]
    have hne : trimStart t ≠ [] := by simpa [isSpace] using h
    unfold isSpace
    rw [he, trimStart_append_blank (by decide), if_neg hne]
    simp

/-- Comments of which something is visible are joined to such a comment. -/
theorem isSpace_joinComments? {cs : List (Option Text)} (h : ∀ c ∈ cs, ∀ t ∈ c, isSpace t = false) :
    ∀ t ∈ joinComments? cs, isSpace t = false := by
  intro t ht
  unfold joinComments? at ht
  split at ht
  · cases ht
  · next hne =>
    cases ht
    obtain ⟨u, us, he⟩ := List.exists_cons_of_ne_nil hne
    have hmem : u ∈ cs.filterMap id := he ▸ List.mem_cons_self
    obtain ⟨c, hc, rfl⟩ := List.mem_filterMap.1 hmem
    rw [he]
    exact isSpace_join (h _ hc u rfl)

/-! ## Headers that can be written -/

namespace ClassFile

/-- The names in front of the class body are read whole. -/
structure HeaderWritable (f : ClassFile) : Prop where
  namespaceName : Scan.IsStatement false f.namespaceName.payload
  imports : ∀ i ∈ f.imports, Scan.IsStatement false i.payload
  className : IsIdent f.className
  parent : ∀ p ∈ f.parent, IsName p.payload
  interfaces : ∀ i ∈ f.interfaces, IsName i

/-- The comments in front of the class body are such as are read. -/
structure HeaderNormal (f : ClassFile) : Prop where
  namespaceName : f.namespaceName.Normal
  imports : ∀ i ∈ f.imports, i.Normal
  signature : f.signature.Normal
  parent : ∀ p ∈ f.parent, p.Normal

end ClassFile

namespace Grammar

/-! ## What is read can be written -/

theorem isSpace_comment {t rest : Text} {c : Option Text} (h : comment t = .ok (c, rest)) :
    ∀ x ∈ c, isSpace x = false := by
  obtain ⟨acc, -, rfl⟩ := comment_eq_ok.1 h
  exact fun x hx => Scan.commentText?_isSpace hx

theorem skipStatement_eq_ok {t rest : Text} : skipStatement t = .ok rest ↔
    ∃ s, t = s ++ ascii ';' :: rest ∧ Scan.Passes true (ascii ';') s 0 0 := by
  rw [← Scan.afterTerminator_eq_ok (by decide)]
  unfold skipStatement
  constructor
  · intro h
    split at h
    · next hr => cases h; exact hr
    · cases h
  · intro h
    rw [h]

theorem namespaceWord_of_word {t r rest : Text} {c : Option Text} (earlier : List (Option Text))
    (hc : comment t = .ok (c, r)) (hk : keyword? (utf8 "namespace") r = some rest) :
    namespaceWord earlier t = .ok (earlier ++ [c], rest) := by
  rw [namespaceWord]
  split
  · next he => rw [hc] at he; cases he
  · next he =>
    rw [hc] at he
    cases he
    rw [hk]

theorem namespaceWord_of_statement {t r rest : Text} {c : Option Text} (earlier : List (Option Text))
    (hc : comment t = .ok (c, r)) (hk : keyword? (utf8 "namespace") r = none)
    (hs : skipStatement r = .ok rest) : namespaceWord earlier t = namespaceWord (earlier ++ [c]) rest := by
  rw [namespaceWord]
  split
  · next he => rw [hc] at he; cases he
  · next he =>
    rw [hc] at he
    cases he
    rw [hk]
    dsimp only
    split
    · next he => rw [hs] at he; cases he
    · next he =>
      rw [hs] at he
      cases he
      rfl

theorem namespaceWord_eq_ok {earlier cs : List (Option Text)} {t rest : Text}
    (h : namespaceWord earlier t = .ok (cs, rest)) (he : ∀ c ∈ earlier, ∀ x ∈ c, isSpace x = false) :
    (∀ c ∈ cs, ∀ x ∈ c, isSpace x = false) ∧ rest <:+ t := by
  fun_induction namespaceWord earlier t with
  | case1 => cases h
  | case2 earlier t c r hc r' hk =>
    cases h
    refine ⟨fun d hd => ?_, ?_⟩
    · rcases List.mem_append.1 hd with hd | hd
      · exact he d hd
      · rw [List.mem_singleton.1 hd]
        exact isSpace_comment hc
    · rw [keyword?_eq_append hk] at hc
      exact (List.suffix_append _ _).trans (comment_suffix hc)
  | case3 => cases h
  | case4 earlier t c r hc hk r' hs ih =>
    obtain ⟨hall, hsuffix⟩ := ih h fun d hd => by
      rcases List.mem_append.1 hd with hd | hd
      · exact he d hd
      · rw [List.mem_singleton.1 hd]
        exact isSpace_comment hc
    obtain ⟨s, rfl, -⟩ := skipStatement_eq_ok.1 hs
    refine ⟨hall, hsuffix.trans (.trans ?_ (comment_suffix hc))⟩
    exact (List.suffix_cons _ _).trans (List.suffix_append _ _)

theorem namespaceName_eq_ok {t rest : Text} {e : Element Text} (h : namespaceName t = .ok (e, rest)) :
    Scan.IsStatement false e.payload ∧ e.Normal ∧ rest <:+ t := by
  obtain ⟨⟨cs, r₁⟩, hw, h⟩ := bind_eq_ok.1 h
  obtain ⟨⟨name, r₂⟩, hs, h⟩ := bind_eq_ok.1 h
  cases h
  obtain ⟨hall, hsuffix⟩ := namespaceWord_eq_ok hw (by simp)
  refine ⟨(statement_eq_ok hs).1, ⟨isSpace_joinComments? hall, fun c hc => ?_⟩, ?_⟩
  · exact Comment.isShown_trailing hc
  · exact (Scan.trailing_suffix r₂).trans ((statement_suffix hs).trans hsuffix)

theorem importName_eq_ok {c : Option Text} {t rest : Text} {e : Element Text}
    (h : importName c t = .ok (e, rest)) (hc : ∀ x ∈ c, isSpace x = false) :
    Scan.IsStatement false e.payload ∧ e.Normal := by
  obtain ⟨⟨name, r⟩, hs, h⟩ := bind_eq_ok.1 h
  cases h
  exact ⟨(statement_eq_ok hs).1, hc, fun c hc => Comment.isShown_trailing hc⟩

theorem imports_of_none {t rest : Text} {c : Option Text} (hc : comment t = .ok (c, rest))
    (hk : keyword? (utf8 "use") rest = none) : imports t = .ok ([], c, rest) := by
  rw [imports]
  split
  · next he => rw [hc] at he; cases he
  · next he =>
    rw [hc] at he
    cases he
    rw [hk]

theorem imports_of_use {t r r' rest : Text} {c : Option Text} {i : Element Text}
    (hc : comment t = .ok (c, r)) (hk : keyword? (utf8 "use") r = some r') (hi : importName c r' = .ok (i, rest)) :
    imports t = imports rest >>= fun p => .ok (i :: p.1, p.2) := by
  rw [imports]
  split
  · next he => rw [hc] at he; cases he
  · next he =>
    rw [hc] at he
    cases he
    rw [hk]
    dsimp only
    rw [hi]
    rfl

theorem imports_eq_ok {t rest : Text} {es : List (Element Text)} {pending : Option Text}
    (h : imports t = .ok (es, pending, rest)) :
    (∀ e ∈ es, Scan.IsStatement false e.payload ∧ e.Normal) ∧ (∀ x ∈ pending, isSpace x = false) ∧
      rest <:+ t := by
  fun_induction imports t generalizing es pending rest with
  | case1 => cases h
  | case2 t c r hc hk =>
    cases h
    exact ⟨by simp, isSpace_comment hc, comment_suffix hc⟩
  | case3 => cases h
  | case4 t c r hc r' hk i r'' hi ih =>
    obtain ⟨⟨es', pending', last⟩, hrest, h⟩ := bind_eq_ok.1 h
    cases h
    obtain ⟨hall, hpending, hsuffix⟩ := ih hrest
    refine ⟨fun e he => ?_, hpending, ?_⟩
    · rcases List.mem_cons.1 he with rfl | he
      · exact importName_eq_ok hi (isSpace_comment hc)
      · exact hall e he
    · have hword : r' <:+ r := keyword?_eq_append hk ▸ List.suffix_append _ _
      exact hsuffix.trans ((importName_suffix hi).trans (hword.trans (comment_suffix hc)))

theorem classKind_suffix (t : Text) : (classKind t).2 <:+ t := by
  unfold classKind
  split
  · next hk => exact (skipBlanks_suffix _).trans (keyword?_eq_append hk ▸ List.suffix_append _ _)
  · split
    · next hk => exact (skipBlanks_suffix _).trans (keyword?_eq_append hk ▸ List.suffix_append _ _)
    · exact skipBlanks_suffix t

theorem classWord_suffix {t rest : Text} (h : classWord t = .ok rest) : rest <:+ t := by
  unfold classWord at h
  split at h
  · next hk => cases h; exact keyword?_eq_append hk ▸ List.suffix_append _ _
  · cases h

theorem classSignature_eq_ok {t rest : Text} {s : ClassSignature}
    (h : classSignature t = .ok (s, rest)) : IsIdent s.name ∧ rest <:+ t := by
  obtain ⟨r, hw, h⟩ := bind_eq_ok.1 h
  obtain ⟨⟨name, r'⟩, hi, h⟩ := bind_eq_ok.1 h
  cases h
  exact ⟨(ident_eq_ok hi).2.1, (ident_suffix hi).trans <|
    (skipBlanks_suffix r).trans ((classWord_suffix hw).trans (classKind_suffix t))⟩

theorem name_eq_ok {what : Expected} {t w rest : Text} (h : name what t = .ok (w, rest)) :
    t = w ++ rest ∧ IsName w ∧ Apart Byte.isName rest := by
  unfold name at h
  dsimp only at h
  split at h
  · cases h
  · next hne =>
    cases h
    obtain ⟨ht, hw, hap⟩ := name_eq (t := t) rfl
    exact ⟨ht, ⟨by simpa using hne, hw⟩, hap⟩

theorem parentName_eq_ok {c : Option Text} {t rest : Text} {e : Element Text}
    (h : parentName c t = .ok (e, rest)) (hc : ∀ x ∈ c, isSpace x = false) :
    IsName e.payload ∧ e.Normal ∧ rest <:+ t := by
  obtain ⟨⟨c', r₁⟩, hc', h⟩ := bind_eq_ok.1 h
  obtain ⟨⟨w, r₂⟩, hn, h⟩ := bind_eq_ok.1 h
  cases h
  refine ⟨(name_eq_ok hn).2.1, ⟨isSpace_joinComments? ?_, fun x hx => ?_⟩, ?_⟩
  · intro d hd
    rcases List.mem_cons.1 hd with rfl | hd
    · exact hc
    · rw [List.mem_singleton.1 hd]
      exact isSpace_comment hc'
  · exact Comment.isShown_trailing hx
  · exact (Scan.trailing_suffix r₂).trans ((name_suffix hn).trans (comment_suffix hc'))

theorem extendsClause_eq_ok {t rest : Text} {parent : Option (Element Text)} {c : Option Text}
    (h : extendsClause t = .ok ((parent, c), rest)) :
    (∀ p ∈ parent, IsName p.payload ∧ p.Normal) ∧ (∀ x ∈ c, isSpace x = false) ∧ rest <:+ t := by
  obtain ⟨⟨before, r₁⟩, hb, h⟩ := bind_eq_ok.1 h
  dsimp only at h
  split at h
  · next r₂ hk =>
    obtain ⟨⟨p, r₃⟩, hp, h⟩ := bind_eq_ok.1 h
    obtain ⟨⟨behind, r₄⟩, hc, h⟩ := bind_eq_ok.1 h
    cases h
    obtain ⟨hname, hnormal, hsuffix⟩ := parentName_eq_ok hp (isSpace_comment hb)
    have hword : r₂ <:+ r₁ := keyword?_eq_append hk ▸ List.suffix_append _ _
    refine ⟨by simpa using ⟨hname, hnormal⟩, isSpace_comment hc, ?_⟩
    exact (comment_suffix hc).trans (hsuffix.trans (hword.trans (comment_suffix hb)))
  · cases h
    exact ⟨by simp, isSpace_comment hb, comment_suffix hb⟩

/-- The interfaces can be written, and their comments are such as are read. -/
structure Interfaces.Normal (i : Interfaces) : Prop where
  names : ∀ n ∈ i.names, IsName n
  comments : ∀ c ∈ i.comments, ∀ x ∈ c, isSpace x = false
  trailing : ∀ c ∈ i.trailing, ∀ x ∈ c, Comment.IsShown x

theorem Interfaces.Normal.append {i j : Interfaces} (hi : i.Normal) (hj : j.Normal) :
    (i.append j).Normal where
  names := fun n hn => (List.mem_append.1 hn).elim (hi.names n) (hj.names n)
  comments := fun c hc => (List.mem_append.1 hc).elim (hi.comments c) (hj.comments c)
  trailing := fun c hc => (List.mem_append.1 hc).elim (hi.trailing c) (hj.trailing c)

theorem interfaceName_normal {t rest : Text} {i : Interfaces} (h : interfaceName t = .ok (i, rest)) :
    i.Normal := by
  obtain ⟨⟨before, r₁⟩, hb, h⟩ := bind_eq_ok.1 h
  obtain ⟨⟨w, r₂⟩, hn, h⟩ := bind_eq_ok.1 h
  obtain ⟨⟨behind, r₃⟩, ha, h⟩ := bind_eq_ok.1 h
  cases h
  refine ⟨fun n hm => ?_, fun c hc => ?_, fun c hc x hx => ?_⟩
  · rw [List.mem_singleton.1 hm]
    exact (name_eq_ok hn).2.1
  · rcases List.mem_cons.1 hc with rfl | hc
    · exact isSpace_comment hb
    · rw [List.mem_singleton.1 hc]
      exact isSpace_comment ha
  · rw [List.mem_singleton.1 hc] at hx
    exact Comment.isShown_trailing hx

theorem interfaces_eq_ok {t rest : Text} {i : Interfaces} (h : interfaces t = .ok (i, rest)) :
    i.Normal ∧ rest <:+ t := by
  fun_induction interfaces t generalizing i rest with
  | case1 => cases h
  | case2 t j r hj hn =>
    cases h
    exact ⟨interfaceName_normal hj, interfaceName_suffix hj⟩
  | case3 t j r hj behind hb comma =>
    rename_i ih
    obtain ⟨⟨more, last⟩, hmore, h⟩ := bind_eq_ok.1 h
    cases h
    obtain ⟨hnormal, hsuffix⟩ := ih hmore
    have hcomma : ({ trailing := [(Scan.trailing behind).1] } : Interfaces).Normal := by
      refine ⟨by simp, by simp, fun c hc x hx => ?_⟩
      rw [List.mem_singleton.1 hc] at hx
      exact Comment.isShown_trailing hx
    have hrest : behind <:+ r := after?_eq_some.1 hb ▸ List.suffix_append _ _
    refine ⟨((interfaceName_normal hj).append hcomma).append hnormal, ?_⟩
    exact hsuffix.trans ((Scan.trailing_suffix behind).trans (hrest.trans (interfaceName_suffix hj)))

theorem implementsClause_eq_ok {t rest : Text} {i : Interfaces}
    (h : implementsClause t = .ok (i, rest)) : i.Normal ∧ rest <:+ t := by
  unfold implementsClause at h
  split at h
  · next hk =>
    obtain ⟨hnormal, hsuffix⟩ := interfaces_eq_ok h
    exact ⟨hnormal, hsuffix.trans (keyword?_eq_append hk ▸ List.suffix_append _ _)⟩
  · cases h
    exact ⟨⟨by simp, by simp, by simp⟩, List.suffix_rfl⟩

theorem bodyStart_eq_ok {t rest : Text} (h : bodyStart t = .ok rest) : t = Byte.openBrace :: rest := by
  unfold bodyStart at h
  split at h
  · next hr => cases h; exact after?_eq_some.1 hr
  · cases h

/-- A header that is read can be written, and is read from the front of the text up to and with the line
comment behind the brace. -/
theorem header_eq_ok {t rest : Text} {f : ClassFile} (h : header t = .ok (f, rest)) :
    f.HeaderWritable ∧ f.HeaderNormal ∧ rest <:+ t ∧ ∃ r, rest = (Scan.trailing r).2 := by
  obtain ⟨⟨space, r₁⟩, hn, h⟩ := bind_eq_ok.1 h
  obtain ⟨⟨is, pending, r₂⟩, hi, h⟩ := bind_eq_ok.1 h
  obtain ⟨⟨signature, r₃⟩, hs, h⟩ := bind_eq_ok.1 h
  obtain ⟨⟨⟨parent, c⟩, r₄⟩, he, h⟩ := bind_eq_ok.1 h
  obtain ⟨⟨interfaces, r₅⟩, hm, h⟩ := bind_eq_ok.1 h
  obtain ⟨r₆, hb, h⟩ := bind_eq_ok.1 h
  cases h
  obtain ⟨hspace, hspace', hs₁⟩ := namespaceName_eq_ok hn
  obtain ⟨hall, hpending, hs₂⟩ := imports_eq_ok hi
  obtain ⟨hname, hs₃⟩ := classSignature_eq_ok hs
  obtain ⟨hparent, hc, hs₄⟩ := extendsClause_eq_ok he
  obtain ⟨hinterfaces, hs₅⟩ := implementsClause_eq_ok hm
  have hs₆ : r₆ <:+ r₅ := bodyStart_eq_ok hb ▸ List.suffix_cons _ _
  refine ⟨?_, ?_, ?_, r₆, rfl⟩
  · exact ⟨hspace, fun i hi => (hall i hi).1, hname, fun p hp => (hparent p hp).1, hinterfaces.names⟩
  · refine ⟨hspace', fun i hi => (hall i hi).2, ⟨isSpace_joinComments? ?_, ?_⟩, fun p hp => (hparent p hp).2⟩
    · intro d hd
      rcases List.mem_cons.1 hd with rfl | hd
      · exact hpending
      · rcases List.mem_cons.1 hd with rfl | hd
        · exact hc
        · exact hinterfaces.comments d hd
    · intro x hx
      obtain ⟨d, hd, hdx⟩ := List.exists_of_findSome?_eq_some hx
      rw [id_eq] at hdx
      subst hdx
      rcases List.mem_append.1 hd with hd | hd
      · rcases List.mem_cons.1 hd with hd | hd
        · exact Comment.isShown_trailing hd.symm
        · exact hinterfaces.trailing _ hd x rfl
      · exact Comment.isShown_trailing (List.mem_singleton.1 hd).symm
  · exact (Scan.trailing_suffix r₆).trans <| hs₆.trans <| hs₅.trans <| hs₄.trans <|
      (Scan.trailing_suffix r₃).trans (hs₃.trans (hs₂.trans hs₁))

end Grammar

end PhpClass
