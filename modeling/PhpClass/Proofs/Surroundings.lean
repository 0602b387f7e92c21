import PhpClass.Proofs.Body
import PhpClass.Proofs.HeaderText
import PhpClass.Text.Cursor

/-!
# What stands around a class file

A class file is read from behind the first open tag up to the brace that closes its class, and what stands in
front of the tag or behind the brace does not matter (`ClassFile.parse_surrounded`).

The tag is found where it was found alone, which has to be asked for: a tag in the text in front of it would be
found first. Behind it each reader looks at what it reads and at no more than the front of what it leaves, and
not beyond the end of a declaration there (`Text.GoesOn`). A class file ends in such an end, so all of its
readers do the same whatever follows it.
-/

namespace PhpClass

open Text

namespace Text

/-! ## The open tag -/

theorem after?_eq_none_append {needle t : Text} (h : after? needle t = none)
    (hlength : needle.length ≤ t.length) (more : Text) : after? needle (t ++ more) = none := by
  rw [Option.eq_none_iff_forall_ne_some] at h ⊢
  intro rest hrest
  obtain ⟨r, rfl⟩ := List.prefix_of_prefix_length_le ⟨rest, (after?_eq_some.1 hrest).symm⟩
    (List.prefix_append t more) hlength
  exact h r (after?_append needle r)

/-- The first occurrence stays the first whatever follows the text. -/
theorem beyond?_eq_some_append {needle t rest : Text} (h : beyond? needle t = some rest) (more : Text) :
    beyond? needle (t ++ more) = some (rest ++ more) := by
  induction t with
  | nil =>
    obtain ⟨rfl, rfl⟩ := List.append_eq_nil_iff.1 (after?_eq_some.1 h).symm
    exact beyond?_append [] more
  | cons b t ih =>
    rw [beyond?] at h
    split at h
    · next r hr =>
      cases h
      rw [after?_eq_some.1 hr, List.append_assoc]
      exact beyond?_append needle (rest ++ more)
    · next hn =>
      have hlength : needle.length ≤ t.length := by
        have hle := (beyond?_suffix h).length_le
        rw [List.length_append] at hle
        omega
      have hnone := after?_eq_none_append hn (Nat.le_succ_of_le hlength) more
      rw [List.cons_append] at hnone ⊢
      rw [beyond?, hnone]
      exact ih h

theorem find?_start (needle t : Text) : (Cursor.start t).find? needle =
    (beyond? needle t).map fun rest => t.length - (needle ++ rest).length := rfl

/-- A text that puts off the first occurrence by its own length hides no earlier one. -/
theorem beyond?_of_find? {needle before t rest : Text} (h : beyond? needle t = some rest)
    (hfind : (Cursor.start (before ++ t)).find? needle =
      ((Cursor.start t).find? needle).map (before.length + ·)) :
    beyond? needle (before ++ t) = some rest := by
  rw [find?_start, find?_start, h, Option.map_some, Option.map_some] at hfind
  obtain ⟨r, hr, hlength⟩ := Option.map_eq_some_iff.1 hfind
  have hrest := beyond?_suffix h
  have hsuffix := beyond?_suffix hr
  have hle := hrest.length_le
  have hle' := hsuffix.length_le
  simp only [List.length_append] at hlength hle hle'
  -- Both rests have the same length and are rests of the same text.
  have hsame : r.length = rest.length := by omega
  have hr' : r <:+ before ++ t := (List.suffix_append needle r).trans hsuffix
  have hrest' : rest <:+ before ++ t :=
    ((List.suffix_append needle rest).trans hrest).trans (List.suffix_append before t)
  rw [hr, (List.suffix_of_suffix_length_le hr' hrest' (Nat.le_of_eq hsame)).eq_of_length hsame]

end Text

/-! ## Words, gaps and line comments -/

theorem Text.keyword?_local {word t rest : Text} (h : keyword? word t = some rest) :
    GoesOn (keyword? word) t some rest := by
  obtain ⟨rfl, hap⟩ := keyword?_eq_some.1 h
  exact ⟨word, rfl, fun r hr => keyword?_eq_some.2 ⟨rfl, hr.apart hap⟩⟩

theorem Scan.trailing_local (t : Text) :
    GoesOn trailing t (fun r => ((trailing t).1, r)) (trailing t).2 := by
  simp only [trailing_eq]
  rcases hl : lineComment t with ⟨_ | c, rest⟩
  · obtain ⟨sp, rfl, hs, hap, hn⟩ := lineComment_eq_none hl
    refine ⟨sp, rfl, ?_⟩
    intro r hr
    have hslash : startsWith (utf8 "//") r = false := by
      have hnone : after? (utf8 "//") rest = none := by simpa [startsWith] using hn
      rw [startsWith, hr.after?_eq_none (by decide) hnone]
      rfl
    rw [trailing_eq, lineComment_none hs (hr.apart hap) hslash]
  · obtain ⟨sp, rfl, hs, hc, hap⟩ := lineComment_eq_some hl
    refine ⟨sp ++ utf8 "//" ++ c, rfl, ?_⟩
    intro r hr
    rw [trailing_eq, lineComment_some hs hc (hr.apart hap)]

namespace Grammar

variable {t rest : Text}

theorem comment_local {c : Option Text} (h : comment t = .ok (c, rest)) :
    GoesOn comment t (fun r => .ok (c, r)) rest := by
  obtain ⟨acc, hg, rfl⟩ := comment_eq_ok.1 h
  obtain ⟨p, rfl, hp⟩ := gap_local hg
  exact ⟨p, rfl, fun r hr => comment_eq_ok.2 ⟨acc, hp r hr, rfl⟩⟩

/-! ## Namespace and imports -/

theorem statement_local {strings : Bool} {what : Expected} {v : Text}
    (h : statement strings what t = .ok (v, rest)) :
    GoesOn (statement strings what) t (fun r => .ok (v, r)) rest := by
  obtain ⟨-, s, rfl, hmore⟩ := statement_eq_ok h
  exact .of_last hmore rest

theorem skipStatement_local (h : skipStatement t = .ok rest) : GoesOn skipStatement t .ok rest := by
  obtain ⟨s, rfl, hs⟩ := skipStatement_eq_ok.1 h
  exact .of_last (fun more => skipStatement_eq_ok.2 ⟨s, rfl, hs⟩) rest

theorem namespaceWord_local {earlier cs : List (Option Text)}
    (h : namespaceWord earlier t = .ok (cs, rest)) :
    GoesOn (namespaceWord earlier) t (fun r => .ok (cs, r)) rest := by
  fun_induction namespaceWord earlier t with
  | case1 => cases h
  | case2 earlier t c r hc r' hk =>
    cases h
    obtain ⟨p, rfl, hcomment⟩ := comment_local hc
    obtain ⟨q, rfl, hword⟩ := keyword?_local hk
    refine ⟨p ++ q, (List.append_assoc ..).symm, ?_⟩
    intro r hr
    rw [List.append_assoc]
    exact namespaceWord_of_word earlier (hcomment _ (hr.append q)) (hword r hr)
  | case3 => cases h
  | case4 earlier t c r hc hk r' hs ih =>
    obtain ⟨p, rfl, hcomment⟩ := comment_local hc
    obtain ⟨q, rfl, hskip⟩ := skipStatement_local hs
    refine .trans ⟨p ++ q, (List.append_assoc ..).symm, fun r hr => ?_⟩ (ih h)
    -- A skipped statement ends in a `;`, so whether it begins with the word is seen without what follows it.
    have hagree := hr.append q
    rw [List.append_assoc]
    exact namespaceWord_of_statement earlier (hcomment _ hagree) (hagree.keyword?_eq_none (by decide) hk)
      (hskip r hr)

theorem namespaceName_local {e : Element Text} (h : namespaceName t = .ok (e, rest)) :
    GoesOn namespaceName t (fun r => .ok (e, r)) rest := by
  obtain ⟨⟨cs, r₁⟩, hw, h⟩ := bind_eq_ok.1 h
  obtain ⟨⟨name, r₂⟩, hs, h⟩ := bind_eq_ok.1 h
  cases h
  refine .bind (namespaceWord_local hw) (.bind (statement_local hs) ?_)
  exact (Scan.trailing_local r₂).map fun p =>
    Except.ok ((⟨name, joinComments? cs, p.1⟩ : Element Text), p.2)

theorem importName_local {c : Option Text} {e : Element Text} (h : importName c t = .ok (e, rest)) :
    GoesOn (importName c) t (fun r => .ok (e, r)) rest := by
  obtain ⟨⟨name, r⟩, hs, h⟩ := bind_eq_ok.1 h
  cases h
  refine .bind (statement_local hs) ?_
  exact (Scan.trailing_local r).map fun p =>
    Except.ok ((⟨name, c, p.1⟩ : Element Text), p.2)

theorem imports_local {es : List (Element Text)} {pending : Option Text}
    (h : imports t = .ok (es, pending, rest)) :
    GoesOn imports t (fun r => .ok (es, pending, r)) rest := by
  fun_induction imports t generalizing es pending rest with
  | case1 => cases h
  | case2 t c r hc hk =>
    cases h
    obtain ⟨p, rfl, hcomment⟩ := comment_local hc
    exact ⟨p, rfl, fun r hr => imports_of_none (hcomment r hr) (hr.keyword?_eq_none (by decide) hk)⟩
  | case3 => cases h
  | case4 t c r hc r' hk i r'' hi ih =>
    obtain ⟨⟨es', pending', last⟩, hrest, h⟩ := bind_eq_ok.1 h
    cases h
    obtain ⟨p, rfl, hcomment⟩ := comment_local hc
    obtain ⟨q, rfl, hword⟩ := keyword?_local hk
    obtain ⟨s, rfl, hname⟩ := importName_local hi
    have huse : GoesOn imports (p ++ (q ++ (s ++ r'')))
        (fun r => imports r >>= fun x => .ok (i :: x.1, x.2)) r'' := by
      refine ⟨p ++ (q ++ s), by rw [List.append_assoc, List.append_assoc], ?_⟩
      intro r hr
      have hagree := hr.append s
      rw [List.append_assoc, List.append_assoc]
      exact imports_of_use (hcomment _ (hagree.append q)) (hword _ hagree) (hname r hr)
    refine huse.trans (.bind (ih hrest) ?_)
    exact .refl _ _

/-! ## The class -/

theorem classKind_local (t : Text) : GoesOn classKind t (fun r => ((classKind t).1, r)) (classKind t).2 := by
  unfold classKind
  split
  · next r hk =>
    obtain ⟨p, rfl, hword⟩ := keyword?_local hk
    refine .trans ⟨p, rfl, fun r' hr => ?_⟩ ((skipBlanks_local r).map fun t => (ClassKind.final, t))
    dsimp only
    rw [hword r' hr]
  · next hfinal =>
    split
    · next r hk =>
      obtain ⟨p, rfl, hword⟩ := keyword?_local hk
      refine .trans ⟨p, rfl, fun r' hr => ?_⟩ ((skipBlanks_local r).map fun t => (ClassKind.abstract, t))
      dsimp only
      rw [(hr.append p).keyword?_eq_none (by decide) hfinal, hword r' hr]
    · next habstract =>
      refine .trans ⟨[], rfl, fun r' hr => ?_⟩ ((skipBlanks_local t).map fun t => (ClassKind.normal, t))
      dsimp only
      rw [List.nil_append, hr.keyword?_eq_none (by decide) hfinal, hr.keyword?_eq_none (by decide) habstract]

theorem classWord_local (h : classWord t = .ok rest) : GoesOn classWord t .ok rest := by
  unfold classWord at h
  split at h
  · next hk =>
    cases h
    obtain ⟨p, rfl, hword⟩ := keyword?_local hk
    refine ⟨p, rfl, ?_⟩
    intro r hr
    rw [classWord, hword r hr]
  · cases h

theorem classSignature_local {s : ClassSignature} (h : classSignature t = .ok (s, rest)) :
    GoesOn classSignature t (fun r => .ok (s, r)) rest := by
  obtain ⟨r, hw, h⟩ := bind_eq_ok.1 h
  obtain ⟨⟨name, r'⟩, hi, h⟩ := bind_eq_ok.1 h
  cases h
  have hname : GoesOn (fun t => ident .className (skipBlanks t)) r (fun r => .ok (name, r)) rest :=
    (ident_skipBlanks_local hi).2
  have hkind := (classKind_local t).map fun p => classWord p.2 >>= fun rest =>
    ident .className (skipBlanks rest) >>= fun q => .ok ((⟨q.1, p.1⟩ : ClassSignature), q.2)
  refine hkind.trans ?_
  dsimp only
  refine .bind (classWord_local hw) (.bind hname ?_)
  exact .refl _ _

theorem name_local {what : Expected} {w : Text} (h : name what t = .ok (w, rest)) :
    GoesOn (name what) t (fun r => .ok (w, r)) rest := by
  obtain ⟨rfl, hw, hap⟩ := name_eq_ok h
  exact ⟨w, rfl, fun r hr => name_of_isName hw (hr.apart hap)⟩

theorem parentName_local {c : Option Text} {e : Element Text} (h : parentName c t = .ok (e, rest)) :
    GoesOn (parentName c) t (fun r => .ok (e, r)) rest := by
  obtain ⟨⟨behind, r₁⟩, hc, h⟩ := bind_eq_ok.1 h
  obtain ⟨⟨w, r₂⟩, hn, h⟩ := bind_eq_ok.1 h
  cases h
  refine .bind (comment_local hc) (.bind (name_local hn) ?_)
  exact (Scan.trailing_local r₂).map fun p =>
    Except.ok ((⟨w, joinComments? [c, behind], p.1⟩ : Element Text), p.2)

theorem extendsClause_local {x : Option (Element Text) × Option Text}
    (h : extendsClause t = .ok (x, rest)) : GoesOn extendsClause t (fun r => .ok (x, r)) rest := by
  obtain ⟨⟨before, r₁⟩, hb, h⟩ := bind_eq_ok.1 h
  dsimp only at h
  refine .bind (comment_local hb) ?_
  split at h
  · next r₂ hk =>
    obtain ⟨⟨parent, r₃⟩, hp, h⟩ := bind_eq_ok.1 h
    obtain ⟨⟨behind, r₄⟩, hc, h⟩ := bind_eq_ok.1 h
    cases h
    obtain ⟨p, rfl, hword⟩ := keyword?_local hk
    refine .trans ⟨p, rfl, fun r hr => ?_⟩ (.bind (k := fun q => comment q.2 >>= fun d =>
      .ok ((some q.1, d.1), d.2)) (parentName_local hp) ?_)
    · dsimp only
      rw [hword r hr]
      rfl
    · dsimp only
      refine .bind (comment_local hc) ?_
      exact .refl _ _
  · next hk =>
    cases h
    refine ⟨[], rfl, ?_⟩
    intro r hr
    dsimp only
    rw [List.nil_append, hr.keyword?_eq_none (by decide) hk]
    rfl

theorem interfaceName_local {i : Interfaces} (h : interfaceName t = .ok (i, rest)) :
    GoesOn interfaceName t (fun r => .ok (i, r)) rest := by
  obtain ⟨⟨before, r₁⟩, hb, h⟩ := bind_eq_ok.1 h
  obtain ⟨⟨w, r₂⟩, hn, h⟩ := bind_eq_ok.1 h
  obtain ⟨⟨behind, r₃⟩, ha, h⟩ := bind_eq_ok.1 h
  cases h
  have hbehind := (Scan.trailing_local r₂).map fun p => comment p.2 >>= fun q =>
    .ok ((⟨[w], [before, q.1], [p.1]⟩ : Interfaces), q.2)
  refine .bind (comment_local hb) (.bind (name_local hn) (hbehind.trans ?_))
  dsimp only
  refine .bind (comment_local ha) ?_
  exact .refl _ _

theorem interfaces_local {i : Interfaces} (h : interfaces t = .ok (i, rest)) :
    GoesOn interfaces t (fun r => .ok (i, r)) rest := by
  fun_induction interfaces t generalizing i rest with
  | case1 => cases h
  | case2 t j r hj hn =>
    cases h
    obtain ⟨p, rfl, hname⟩ := interfaceName_local hj
    exact ⟨p, rfl, fun r hr => interfaces_last (hname r hr) (hr.after?_eq_none (by decide) hn)⟩
  | case3 t j r hj behind hb comma =>
    rename_i ih
    obtain ⟨⟨more, last⟩, hmore, h⟩ := bind_eq_ok.1 h
    cases h
    obtain ⟨p, rfl, hname⟩ := interfaceName_local hj
    obtain ⟨q, hq, htrailing⟩ := Scan.trailing_local behind
    obtain ⟨s, hs, hrest⟩ := ih hmore
    have hcomma : r = (utf8 "," ++ q) ++ (s ++ rest) := by
      rw [List.append_assoc, ← hs, ← hq]
      exact after?_eq_some.1 hb
    refine ⟨p ++ ((utf8 "," ++ q) ++ s), by simp [hcomma], ?_⟩
    intro r' hr
    have hagree := hr.append s
    have hread := htrailing (s ++ r') (by rw [hs]; exact hagree)
    have hfirst : interfaceName (p ++ ((utf8 "," ++ q) ++ (s ++ r'))) =
        .ok (j, ascii ',' :: (q ++ (s ++ r'))) := hname _ (hagree.of_append hcomma)
    have hothers : interfaces (Scan.trailing (q ++ (s ++ r'))).2 = .ok (more, r') := by
      rw [hread]
      exact hrest r' hr
    have hlist := interfaces_comma hfirst hothers
    rw [hread] at hlist
    simpa only [List.append_assoc] using hlist

theorem implementsClause_local {i : Interfaces} (h : implementsClause t = .ok (i, rest)) :
    GoesOn implementsClause t (fun r => .ok (i, r)) rest := by
  unfold implementsClause at h
  split at h
  · next hk =>
    obtain ⟨p, rfl, hword⟩ := keyword?_local hk
    refine .trans ⟨p, rfl, fun r hr => ?_⟩ (interfaces_local h)
    rw [implementsClause, hword r hr]
  · next hk =>
    cases h
    refine ⟨[], rfl, ?_⟩
    intro r hr
    rw [List.nil_append, implementsClause, hr.keyword?_eq_none (by decide) hk]

theorem bodyStart_local (h : bodyStart t = .ok rest) : GoesOn bodyStart t .ok rest := by
  have ht := bodyStart_eq_ok h
  refine ⟨[Byte.openBrace], ht, ?_⟩
  intro r _
  rw [bodyStart, after?_append]

theorem header_local {f : ClassFile} (h : header t = .ok (f, rest)) :
    GoesOn header t (fun r => .ok (f, r)) rest := by
  obtain ⟨⟨space, r₁⟩, hn, h⟩ := bind_eq_ok.1 h
  obtain ⟨⟨is, pending, r₂⟩, hi, h⟩ := bind_eq_ok.1 h
  obtain ⟨⟨signature, r₃⟩, hs, h⟩ := bind_eq_ok.1 h
  obtain ⟨⟨⟨parent, c⟩, r₄⟩, he, h⟩ := bind_eq_ok.1 h
  obtain ⟨⟨interfaces, r₅⟩, hm, h⟩ := bind_eq_ok.1 h
  obtain ⟨r₆, hb, h⟩ := bind_eq_ok.1 h
  cases h
  obtain ⟨p₁, rfl, h₁⟩ := namespaceName_local hn
  obtain ⟨p₂, rfl, h₂⟩ := imports_local hi
  obtain ⟨p₃, rfl, h₃⟩ := classSignature_local hs
  obtain ⟨q₃, hq₃, hbehind⟩ := Scan.trailing_local r₃
  obtain ⟨p₄, hp₄, h₄⟩ : GoesOn extendsClause (Scan.trailing r₃).2 _ r₄ := extendsClause_local he
  obtain ⟨p₅, rfl, h₅⟩ := implementsClause_local hm
  obtain ⟨p₆, rfl, h₆⟩ := bodyStart_local hb
  obtain ⟨q₆, hq₆, hbrace⟩ := Scan.trailing_local r₆
  refine ⟨p₁ ++ (p₂ ++ (p₃ ++ (q₃ ++ (p₄ ++ (p₅ ++ (p₆ ++ q₆)))))), ?_, ?_⟩
  · have hclass : r₃ = q₃ ++ (p₄ ++ (p₅ ++ (p₆ ++ (q₆ ++ (Scan.trailing r₆).2)))) := by
      rw [← hq₆, ← hp₄, ← hq₃]
    simp only [List.append_assoc]
    exact congrArg (fun u => p₁ ++ (p₂ ++ (p₃ ++ u))) hclass
  · intro r hr
    have a₆ := hr.of_append hq₆
    have a₅ := a₆.append p₆
    have a₄ := a₅.append p₅
    have a₃ := (a₄.of_append hp₄).of_append hq₃
    have a₂ := a₃.append p₃
    simp only [List.append_assoc]
    refine bind_eq_ok.2 ⟨_, h₁ _ (a₂.append p₂), bind_eq_ok.2 ⟨_, h₂ _ a₂, bind_eq_ok.2 ⟨_, h₃ _ a₃, ?_⟩⟩⟩
    dsimp only
    rw [hbehind _ (a₄.of_append hp₄)]
    refine bind_eq_ok.2 ⟨_, h₄ _ a₄, bind_eq_ok.2 ⟨_, h₅ _ a₅, bind_eq_ok.2 ⟨_, h₆ _ a₆, ?_⟩⟩⟩
    dsimp only
    rw [hbrace r hr]
    rfl

/-! ## The body and the file -/

/-- What follows the closing brace of a body does not matter. -/
theorem Body.exists_close {ms : List Member} {closing : Option Text} (h : Body t ms closing rest) :
    ∃ s, t = s ++ Byte.closeBrace :: rest ∧ ∀ more, Body (s ++ Byte.closeBrace :: more) ms closing more := by
  induction h with
  | @close g rest cs hg => exact ⟨g, rfl, fun more => .close hg⟩
  | @member g s more rest cs alone ms closing hg hs _ ih =>
    obtain ⟨u, hu, hbody⟩ := ih
    obtain ⟨p, hp, htrailing⟩ := Scan.trailing_local more
    refine ⟨g ++ (s ++ (p ++ u)), ?_, ?_⟩
    · simp only [List.append_assoc]
      rw [← hu, ← hp]
    · intro more'
      have hread : Scan.trailing (p ++ (u ++ Byte.closeBrace :: more')) = _ :=
        htrailing _ (hu ▸ (agree_end (by decide) rest more').append u)
      have hrest : Body (Scan.trailing (p ++ (u ++ Byte.closeBrace :: more'))).2 ms closing more' := by
        rw [hread]
        exact hbody more'
      have hmember := Body.member hg hs hrest
      rw [hread] at hmember
      simpa only [List.append_assoc] using hmember

/-- A header and the body behind it are read up to the brace that closes the class, whatever follows. -/
theorem exists_close {hd : ClassFile} {content : ClassContent} {r : Text} (hh : header t = .ok (hd, r))
    (hb : body {} r = .ok (content, rest)) : ∃ s, t = s ++ Byte.closeBrace :: rest ∧
      ∀ more, ∃ r', header (s ++ Byte.closeBrace :: more) = .ok (hd, r') ∧ body {} r' = .ok (content, more) := by
  obtain ⟨ms, closing, c, hbody, -, -, hadd, rfl⟩ := exists_body hb
  obtain ⟨s, rfl, hmore⟩ := hbody.exists_close
  obtain ⟨p, rfl, hheader⟩ := header_local hh
  refine ⟨p ++ s, (List.append_assoc ..).symm, fun more => ⟨s ++ Byte.closeBrace :: more, ?_, ?_⟩⟩
  · rw [List.append_assoc]
    exact hheader _ ((agree_end (by decide) rest more).append s)
  · rw [body_eq (hmore more), bodyResult, hadd]

end Grammar

namespace ClassFile

/-- **What stands around a class file does not matter.** A text behind it, and a text in front of it that does not
bring the first open tag forward, leave all that is read as it is, but for the source that is kept. -/
theorem parse_surrounded {before t behind : Text} {f : ClassFile} (h : ClassFile.parse t = .ok f)
    (hfind : (Cursor.start (before ++ t)).find? (utf8 "<?php") =
      ((Cursor.start t).find? (utf8 "<?php")).map (before.length + ·)) :
    ClassFile.parse (before ++ t ++ behind) = .ok { f with source := before ++ t ++ behind } := by
  obtain ⟨r, hd, rest, content, last, hr, hh, hb, rfl⟩ := Grammar.source_eq_ok.1 (mapError_eq_ok.1 h)
  obtain ⟨s, rfl, hmore⟩ := Grammar.exists_close hh hb
  obtain ⟨r', hh', hb'⟩ := hmore (last ++ behind)
  have htag := beyond?_eq_some_append (beyond?_of_find? hr hfind) behind
  rw [List.append_assoc s, List.cons_append] at htag
  exact mapError_eq_ok.2 (Grammar.source_eq_ok.2 ⟨_, hd, r', content, last ++ behind, htag, hh', hb', rfl⟩)

/-- A text that ends in the beginning of an open tag in front of a class, and one with another tag, an open comment
and an open string behind it. -/
theorem exists_surrounded :
    ∃ f t, ClassFile.parse (utf8 "<?php namespace A; class C \x7b const N = 1; \x7d") = .ok f ∧
      f.content.size = 1 ∧
      t = utf8 "\x7d <?ph" ++ utf8 "<?php namespace A; class C \x7b const N = 1; \x7d" ++ utf8 "\x7d <?php /* '" ∧
      ClassFile.parse t = .ok { f with source := t } := by
  have hread : (ClassFile.parse (utf8 "<?php namespace A; class C \x7b const N = 1; \x7d")).toOption.map
      (fun f => f.content.size) = some 1 := by decide +kernel
  obtain ⟨f, hf, hsize⟩ := map_toOption_eq_some.1 hread
  exact ⟨f, _, hf, hsize, rfl, ClassFile.parse_surrounded hf (by decide +kernel)⟩

end ClassFile

end PhpClass
