import PhpClass.Grammar.File
import PhpClass.Proofs.Content
import PhpClass.Proofs.Declaration

/-!
# Class bodies

The text of a class body is a sequence of declarations with gaps between them (`Grammar.Body`). What
`Grammar.body` makes of it is what adding the members one after the other makes of them, failures included
(`Grammar.body_eq`), and each body that is read is such a text (`Grammar.exists_body`).
-/

namespace PhpClass

open Text

namespace Grammar

/-- The text of a class body behind its opening brace: the members in it, the comment behind the last of
them, and what follows the closing brace. -/
inductive Body : Text → List Member → Option Text → Text → Prop where
  | close {g rest : Text} {cs : List Text} (hg : Scan.IsGap g cs) :
      Body (g ++ Byte.closeBrace :: rest) [] (Scan.kept (join newline cs)) rest
  | member {g s more rest : Text} {cs : List Text} {alone : Member} {ms : List Member}
      {closing : Option Text} (hg : Scan.IsGap g cs) (hs : Declares s alone)
      (hrest : Body (Scan.trailing more).2 ms closing rest) :
      Body (g ++ (s ++ more))
        (alone.attach (Scan.kept (join newline cs)) (Scan.trailing more).1 :: ms) closing rest

/-- What a class body comes to: its members added to those before. -/
def bodyResult (content : ClassContent) (ms : List Member) (closing : Option Text) (rest : Text) :
    Read (ClassContent × Text) :=
  match content.addAll ms with
  | .ok c => .ok ({ c with closingComment := closing }, rest)
  | .error d => .error (.duplicate d)

/-- No member begins where the body ends. -/
theorem not_member_end (before : Option Text) {t : Text} {c : UInt8} (hc : Byte.isStop c = true)
    (ht : t.head? = some c ∨ t = []) (p : Member × Text) : member before t ≠ .ok p := by
  have hnil : head? [] = none := by
    cases hh : head? [] with
    | none => rfl
    | some p => exact absurd (head?_suffix hh).2 (Nat.not_lt_zero _)
  have hh : head? t = none := by
    rcases ht with ht | rfl
    · cases t with
      | nil => cases ht
      | cons b t =>
        cases ht
        have := head?_append_stop hc [] t
        rw [List.nil_append, hnil] at this
        exact this
    · exact hnil
  unfold member
  rw [hh]
  simp [Read.stop]

/-- Reading a body is adding its members one after the other. -/
theorem body_eq {t rest : Text} {ms : List Member} {closing : Option Text}
    (h : Body t ms closing rest) (content : ClassContent) :
    body content t = bodyResult content ms closing rest := by
  induction h generalizing content with
  | @close g rest cs hg =>
    have hbrace : Scan.GapEnd (Byte.closeBrace :: rest) := Scan.gapEnd_cons (by decide) (by decide)
    have hcomment := comment_append hg hbrace
    rw [body]
    split
    · next he => rw [hcomment] at he; cases he
    · next he =>
      rw [hcomment] at he
      cases he
      rw [show Byte.closeBrace :: rest = [Byte.closeBrace] ++ rest from rfl, after?_append]
      rfl
  | @member g s more rest cs alone ms closing hg hs _ ih =>
    have hcomment := comment_append hg (hs.gapEnd more)
    rw [body]
    split
    · next he => rw [hcomment] at he; cases he
    · next he =>
      rw [hcomment] at he
      cases he
      have hmember := hs.member (Scan.kept (join newline cs)) more
      have hbrace : after? [Byte.closeBrace] (s ++ more) = none := by
        rw [after?_singleton]
        intro hh
        exact not_member_end _ (c := Byte.closeBrace) (by decide) (.inl hh) _ hmember
      have hempty : (s ++ more).isEmpty = false := by
        cases hsm : s ++ more with
        | nil =>
          rw [hsm] at hmember
          exact absurd hmember (not_member_end _ (c := Byte.closeBrace) (by decide) (.inr rfl) _)
        | cons b t => rfl
      rw [hbrace, hempty]
      dsimp only
      rw [if_neg (by simp)]
      split
      · next he => rw [hmember] at he; cases he
      · next he =>
        rw [hmember] at he
        cases he
        unfold bodyResult
        rw [ClassContent.addAll]
        cases content.add (alone.attach (Scan.kept (join newline cs)) (Scan.trailing more).1) with
        | error d => rfl
        | ok c => exact ih c

/-- Each body that is read is the text of a body. -/
theorem exists_body {content content' : ClassContent} {t rest : Text}
    (h : body content t = .ok (content', rest)) :
    ∃ ms closing c, Body t ms closing rest ∧ (∀ m ∈ ms, m.Writable ∧ m.Normal) ∧
      (∀ x ∈ closing, isSpace x = false) ∧ content.addAll ms = .ok c ∧
      content' = { c with closingComment := closing } := by
  fun_induction body content t with
  | case1 => cases h
  | case2 content t c r hc r' hr' =>
    cases h
    have hr := after?_eq_some.1 hr'
    obtain ⟨-, g, cs, rfl, hg, rfl⟩ := exists_gap hc (by rw [hr]; simp)
    rw [hr]
    exact ⟨[], _, content, .close hg, by simp, fun x hx => (Scan.kept_eq_some.1 hx).2, rfl, rfl⟩
  | case3 => cases h
  | case4 => cases h
  | case5 content t c r hc hn hne m r' hm ih =>
    obtain ⟨c₁, hadd, hrest⟩ := bind_eq_ok.1 h
    obtain ⟨hgap, g, cs, rfl, hg, rfl⟩ := exists_gap hc (by simpa using hne)
    obtain ⟨s, alone, more, rfl, hs, hw, hnormal, rfl, rfl⟩ := member_eq_ok hgap hm
    obtain ⟨ms, closing, c₂, hbody, hall, hclosing, hadds, rfl⟩ := ih c₁ hrest
    refine ⟨_ :: ms, closing, c₂, .member hg hs hbody, ?_, hclosing, ?_, rfl⟩
    · intro m hm
      rcases List.mem_cons.1 hm with rfl | hm
      · refine ⟨Member.writable_attach.2 hw, hnormal.attach ?_ ?_⟩
        · exact fun t ht => (Scan.kept_eq_some.1 ht).2
        · exact fun t ht => Comment.isShown_trailing ht
      · exact hall m hm
    · rw [ClassContent.addAll, Read.ofUnique_eq_ok.1 hadd]
      exact hadds

/-! ## Sources -/

/-- Behind its header a source is read as its body is. -/
theorem source_of_header {t r rest : Text} {f : ClassFile} (hr : beyond? (utf8 "<?php") t = some r)
    (hh : header r = .ok (f, rest)) :
    source t = (body {} rest).map fun p => { f with content := p.1, source := t } := by
  unfold source file
  rw [hr]
  dsimp only
  rw [hh]
  cases h : body {} rest with
  | error e => simp [bind, Except.bind, h, Except.map]
  | ok p => simp [bind, Except.bind, h, Except.map, pure, Except.pure]

theorem source_eq_ok {t : Text} {f : ClassFile} : source t = .ok f ↔
    ∃ r hd rest content last, beyond? (utf8 "<?php") t = some r ∧ header r = .ok (hd, rest) ∧
      body {} rest = .ok (content, last) ∧ f = { hd with content, source := t } := by
  unfold source
  constructor
  · intro h
    split at h
    · cases h
    · next r hr =>
      obtain ⟨⟨g, last⟩, hf, h⟩ := bind_eq_ok.1 h
      obtain ⟨⟨hd, rest⟩, hh, hf⟩ := bind_eq_ok.1 hf
      obtain ⟨⟨content, last'⟩, hb, hf⟩ := bind_eq_ok.1 hf
      cases hf
      cases h
      exact ⟨r, hd, rest, content, last, hr, hh, hb, rfl⟩
  · rintro ⟨r, hd, rest, content, last, hr, hh, hb, rfl⟩
    rw [hr]
    exact bind_eq_ok.2 ⟨_, bind_eq_ok.2 ⟨_, hh, bind_eq_ok.2 ⟨_, hb, rfl⟩⟩, rfl⟩

end Grammar

end PhpClass
