import PhpClass.Proofs.Body
import PhpClass.Proofs.Header

/-!
# Nothing in a class body is skipped

What stands between the braces of a class that is read is accounted for byte by byte
(`ClassFile.body_accounted`): it is a sequence of declarations, each of which is read as a member on its
own, and between them there is nothing but blanks and complete comments. Each comment belongs to one
member, or to the closing brace: the one on the line of a declaration to this declaration, and all the
others to what they stand in front of.
-/

namespace PhpClass

open Text

namespace Scan

/-! ## Between two declarations -/

/-- What stands behind a declaration: the line comment on its line, if there is one, and a gap with
further comments. -/
inductive ReadsBetween : Text → Option Text → List Text → Prop where
  | none {sp g : Text} {cs : List Text} (hsp : Within Byte.isGap sp) (hap : Apart Byte.isGap g)
      (hno : startsWith (utf8 "//") g = false) (hg : IsGap g cs) : ReadsBetween (sp ++ g) none cs
  | line {sp c g : Text} {e : UInt8} {cs : List Text} (hsp : Within Byte.isGap sp)
      (hc : Within isInLine c) (he : Byte.isLineEnd e = true) (hg : IsGap (e :: g) cs) :
      ReadsBetween (sp ++ utf8 "//" ++ c ++ e :: g) (some c) cs

/-- There are only blanks and complete comments between two declarations. -/
theorem ReadsBetween.isGap {t : Text} {line : Option Text} {others : List Text}
    (h : ReadsBetween t line others) : IsGap t (line.toList ++ others) := by
  cases h with
  | none hsp _ _ hg => exact (isGap_blanks (hsp.mono Byte.isBlank_of_isGap)).append hg
  | line hsp hc he hg =>
    have := (isGap_blanks (hsp.mono Byte.isBlank_of_isGap)).append (.line hc he hg)
    simpa using this

/-- What is left behind a line comment or in its place begins no further one. -/
theorem lineComment_rest (t : Text) : lineComment (lineComment t).2 = (none, (lineComment t).2) := by
  rcases h : lineComment t with ⟨o, rest⟩
  have hnil : Within Byte.isGap [] := within_nil _
  cases o with
  | none =>
    obtain ⟨-, -, -, hap, hno⟩ := lineComment_eq_none h
    exact lineComment_none hnil hap hno
  | some c =>
    obtain ⟨-, -, -, -, hap⟩ := lineComment_eq_some h
    cases rest with
    | nil => rfl
    | cons e rest =>
      obtain ⟨hgap, hslash⟩ := Byte.isLineEnd_spec e (by simpa [isInLine] using hap)
      refine lineComment_none hnil (apart_cons.2 hgap) ?_
      rw [lineStart]
      simp [startsWith, after?, hslash.symm]

theorem startsWith_append {front t u : Text} (h : startsWith front t = true) :
    startsWith front (t ++ u) = true := by
  unfold startsWith at h ⊢
  obtain ⟨r, hr⟩ := Option.isSome_iff_exists.1 h
  rw [after?_eq_some.1 hr, List.append_assoc, after?_append]
  rfl

/-- What a line comment is looked for in, together with the gap behind it. -/
theorem readsBetween_of_lineComment {pre g u : Text} {line : Option Text} {cs : List Text}
    (h : lineComment (pre ++ (g ++ u)) = (line, g ++ u)) (hg : IsGap g cs) (hu : GapEnd u)
    (hne : u ≠ []) : ReadsBetween (pre ++ g) line cs := by
  cases line with
  | none =>
    obtain ⟨sp, he, hsp, hap, hno⟩ := lineComment_eq_none h
    rw [List.append_cancel_right he]
    refine .none hsp ?_ ?_ hg
    · cases g with
      | nil => exact apart_nil _
      | cons b g => exact apart_cons.2 (by simpa using hap)
    · cases hs : startsWith (utf8 "//") g with
      | false => rfl
      | true => rw [startsWith_append hs] at hno; cases hno
  | some c =>
    obtain ⟨sp, he, hsp, hc, hap⟩ := lineComment_eq_some h
    rw [List.append_cancel_right he]
    cases g with
    | nil =>
      -- The line would end in front of `u`, which begins with no blank.
      obtain ⟨b, u, rfl⟩ := List.exists_cons_of_ne_nil hne
      have hb : Byte.isLineEnd b = true := by simpa [isInLine] using hap
      have := hu.1
      rw [apart_cons, Byte.isBlank_of_isLineEnd b hb] at this
      cases this
    | cons e g => exact .line hsp hc (by simpa [isInLine] using hap) hg

end Scan

/-- What stands between two declarations, or between one and a brace. -/
structure Between where
  text : Text
  /-- The interior of the line comment that only spaces and tabs part from what stands in front. -/
  line : Option Text
  /-- The interiors of the other comments, in their order. -/
  others : List Text
  reads : Scan.ReadsBetween text line others

/-- The comment in front of a member that the other comments make up. -/
def Between.before (b : Between) : Option Text := Scan.kept (join newline b.others)

/-- The comment behind a member that the line comment makes up. -/
def Between.behind (b : Between) : Option Text := b.line.bind visible?

/-- A declaration, and what stands in front of it. -/
structure Stretch where
  between : Between
  code : Text
  /-- What the declaration is read as on its own. -/
  alone : Member
  parse_code : Member.parse code = .ok alone

namespace Stretch

def text (s : Stretch) : Text := s.between.text ++ s.code

/-- What stands behind the brace in front of these declarations. -/
def first (last : Between) : List Stretch → Between
  | [] => last
  | s :: _ => s.between

/-- The members that are declared, with the comments around them. -/
def members (last : Between) : List Stretch → List Member
  | [] => []
  | s :: ss => s.alone.attach s.between.before (first last ss).behind :: members last ss

end Stretch

namespace Grammar

theorem parse_code {s : Text} {m : Member} (h : Declares s m) : Member.parse s = .ok m := by
  have hcomment := comment_append Scan.IsGap.nil (h.gapEnd [])
  have hmember := h.member none []
  rw [List.append_nil] at hcomment hmember
  refine mapError_eq_ok.2 (bind_eq_ok.2 ⟨(none, s), hcomment, bind_eq_ok.2 ⟨_, hmember, ?_⟩⟩)
  have hnil := comment_append Scan.IsGap.nil Scan.gapEnd_nil
  rw [List.append_nil] at hnil
  refine bind_eq_ok.2 ⟨(none, []), hnil, ?_⟩
  exact congrArg Except.ok (m.attach_none h.commentBefore)

/-- The text of a body, with what a line comment is looked for in in front of it, falls into declarations
and what stands between them. -/
theorem Body.account {pre t rest : Text} {ms : List Member} {closing line : Option Text}
    (h : Body t ms closing rest) (hline : Scan.lineComment (pre ++ t) = (line, t)) :
    ∃ ss last, pre ++ t = ss.flatMap Stretch.text ++ (last.text ++ Byte.closeBrace :: rest) ∧
      (Stretch.first last ss).line = line ∧ Stretch.members last ss = ms ∧ last.before = closing := by
  induction h generalizing pre line with
  | @close g rest cs hg =>
    have hend : Scan.GapEnd (Byte.closeBrace :: rest) := Scan.gapEnd_cons (by decide) (by decide)
    have hbetween := Scan.readsBetween_of_lineComment hline hg hend (by simp)
    exact ⟨[], ⟨pre ++ g, line, cs, hbetween⟩, by simp, rfl, rfl, rfl⟩
  | @member g s more rest cs alone ms closing hg hs _ ih =>
    obtain ⟨skipped, hskipped⟩ := Scan.lineComment_suffix more
    obtain ⟨ss, last, htext, hfirst, hmembers, hclosing⟩ :=
      ih (congrArg Scan.lineComment hskipped)
    have hbetween := Scan.readsBetween_of_lineComment hline hg (hs.gapEnd more) (hs.append_ne_nil more)
    refine ⟨⟨⟨pre ++ g, line, cs, hbetween⟩, s, alone, parse_code hs⟩ :: ss, last, ?_, rfl, ?_, hclosing⟩
    · rw [Scan.trailing_eq, hskipped] at htext
      rw [List.flatMap_cons, List.append_assoc, ← htext]
      simp [Stretch.text]
    · rw [Stretch.members, hmembers, Between.behind, hfirst, Scan.trailing_eq]
      rfl

end Grammar

theorem Stretch.code_ne_nil (s : Stretch) : s.code ≠ [] := by
  intro hnil
  obtain ⟨⟨c, r⟩, hc, h⟩ := bind_eq_ok.1 (mapError_eq_ok.1 s.parse_code)
  obtain ⟨⟨m, r'⟩, hm, -⟩ := bind_eq_ok.1 h
  have hlength := Grammar.member_length hm
  have hr := (Grammar.comment_suffix hc).length_le
  rw [hnil, List.length_nil] at hr
  omega

/-- The body of the class in a source is a sequence of declarations with gaps between them, and the members
of the class and their comments are those that stand there. -/
structure ClassFile.Accounted (t : Text) (f : ClassFile) (ss : List Stretch) (last : Between) : Prop where
  /-- The declarations and gaps stand between the end of the header and a closing brace. -/
  text : ∃ front behind r hd,
    t = front ++ (ss.flatMap Stretch.text ++ (last.text ++ Byte.closeBrace :: behind)) ∧
    beyond? (utf8 "<?php") t = some r ∧ Grammar.header r =
      .ok (hd, ss.flatMap Stretch.text ++ (last.text ++ Byte.closeBrace :: behind))
  code_ne_nil : ∀ s ∈ ss, s.code ≠ []
  /-- No comment of the first gap belongs to what stands in front of it. -/
  line : (Stretch.first last ss).line = none
  members : f.content.Holds (Stretch.members last ss)
  closing : f.content.closingComment = last.before

/-- **Nothing in a class body is skipped.** Behind the header of a source that is read there are
declarations, each of which is read as a member on its own, and between them only blanks and complete
comments. The sections hold exactly these members, grouped by kind in the order of the source, each with
the comments that stand around its declaration; the comments behind the last one are the closing comment. -/
theorem ClassFile.body_accounted {t : Text} {f : ClassFile} (h : ClassFile.parse t = .ok f) :
    ∃ ss last, f.Accounted t ss last := by
  obtain ⟨r, hd, rest, content, behind, hr, hh, hb, rfl⟩ := Grammar.source_eq_ok.1 (mapError_eq_ok.1 h)
  obtain ⟨ms, closing, c, hbody, -, -, hadd, rfl⟩ := Grammar.exists_body hb
  obtain ⟨-, -, hsuffix, u, hu⟩ := Grammar.header_eq_ok hh
  -- The line comment behind the brace was read with the header, so none is left in front of the first gap.
  have hline : Scan.lineComment ([] ++ rest) = (none, rest) := by
    rw [List.nil_append, hu]
    exact Scan.lineComment_rest u
  obtain ⟨ss, last, htext, hfirst, hmembers, hclosing⟩ := hbody.account hline
  rw [List.nil_append] at htext
  obtain ⟨front, hfront⟩ := hsuffix.trans ((List.suffix_append _ _).trans (beyond?_suffix hr))
  have hholds := (ClassContent.addAll_eq_ok ClassContent.holds_empty).1 hadd
  refine ⟨ss, last, ⟨front, behind, r, hd, ?_, hr, ?_⟩, fun s _ => s.code_ne_nil, hfirst, ?_, hclosing.symm⟩
  · rw [← htext, hfront]
  · rw [← htext, hh]
  · rw [hmembers]
    exact ClassContent.holds_closing.2 hholds.1

/-- A class with a comment behind a declaration, one in front of a declaration, and a closing comment. -/
theorem ClassFile.exists_accounted : ∃ f, ClassFile.parse (utf8
      "<?php namespace A; class C \x7b const N = 1; // one\n /* two */ use T; /* end */ \x7d") = .ok f ∧
    f.content.closingComment = some (utf8 " end ") ∧ ∃ ss last, f.Accounted (utf8
      "<?php namespace A; class C \x7b const N = 1; // one\n /* two */ use T; /* end */ \x7d") ss last := by
  have hread : (ClassFile.parse (utf8
      "<?php namespace A; class C \x7b const N = 1; // one\n /* two */ use T; /* end */ \x7d")).toOption.map
        (fun f => f.content.closingComment) = some (some (utf8 " end ")) := by decide +kernel
  obtain ⟨f, hf, hclosing⟩ := map_toOption_eq_some.1 hread
  exact ⟨f, hf, hclosing, ClassFile.body_accounted hf⟩

end PhpClass
