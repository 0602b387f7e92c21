import PhpClass.Proofs.Body
import PhpClass.Proofs.HeaderText

/-!
# Members on their own and in a class

A text that is read as a single member is read as this member too when it stands on lines of its own in a
class, whatever stands on the lines around it. So a class that is put together from such texts is read as
the members that are added one after the other (`ClassFile.parse_classAround`), and cannot be read where a
name is taken.
-/

namespace PhpClass

open Text

namespace Scan

/-- The end of a line ends the search for a line comment. -/
theorem lineComment_append_lineEnd {e : UInt8} (he : Byte.isLineEnd e = true) (t rest : Text) :
    lineComment (t ++ e :: rest) = ((lineComment t).1, (lineComment t).2 ++ e :: rest) := by
  obtain ⟨hgap, hslash⟩ := Byte.isLineEnd_spec e he
  have hmem : e ∉ utf8 "//" := by
    rw [lineStart]
    simpa using hslash
  unfold lineComment
  dsimp only
  rw [dropWhile_append_stop hgap, after?_append_stop hmem]
  cases after? (utf8 "//") (t.dropWhile Byte.isGap) with
  | none => rfl
  | some line =>
    obtain ⟨s, ht, hs, hap⟩ := exists_run isInLine line
    have hsplit : splitWhile isInLine (line ++ e :: rest) = (s, line.dropWhile isInLine ++ e :: rest) := by
      rw [ht, List.append_assoc, ← ht]
      refine splitWhile_append hs ?_
      cases hd : line.dropWhile isInLine with
      | nil => simp [isInLine, he]
      | cons b d => rw [hd] at hap; simpa using hap
    have hself : splitWhile isInLine line = (s, line.dropWhile isInLine) := by
      conv => lhs; rw [ht]
      exact splitWhile_append hs hap
    rw [Option.map_some]
    show (some (splitWhile isInLine (line ++ e :: rest)).1, (splitWhile isInLine (line ++ e :: rest)).2) =
      (some (splitWhile isInLine line).1, (splitWhile isInLine line).2 ++ e :: rest)
    rw [hsplit, hself]

theorem trailing_append_lineEnd {e : UInt8} (he : Byte.isLineEnd e = true) (t rest : Text) :
    trailing (t ++ e :: rest) = ((trailing t).1, (trailing t).2 ++ e :: rest) := by
  rw [trailing_eq, trailing_eq, lineComment_append_lineEnd he]

end Scan

/-- Nothing but blanks stands behind the member in the text and the line comment behind that. -/
def EndsBlank (s : Text) : Prop :=
  ∃ c r m rest, Grammar.comment s = .ok (c, r) ∧ Grammar.member c r = .ok (m, rest) ∧ Within Byte.isBlank rest

/-- A class with these texts in its body, on lines of their own. -/
def classAround (ss : List Text) : Text :=
  utf8 "<?php namespace A; class C \x7b" ++ newline ++ ss.flatMap (· ++ newline) ++ [Byte.closeBrace]

namespace Grammar

/-- What a text is made of that is read as a single member and ends in blanks. -/
theorem exists_declares {s : Text} {m : Member} (h : Member.parse s = .ok m) (hs : EndsBlank s) :
    ∃ g cs d alone more, s = g ++ (d ++ more) ∧ Scan.IsGap g cs ∧ Declares d alone ∧
      m = alone.attach (Scan.kept (join newline cs)) (Scan.trailing more).1 ∧
      Within Byte.isBlank (Scan.trailing more).2 := by
  obtain ⟨c, r, m', rest, hc, hm, hblank⟩ := hs
  have hmember : m' = m := by
    obtain ⟨⟨c', r'⟩, hc', h⟩ := bind_eq_ok.1 (mapError_eq_ok.1 h)
    rw [hc] at hc'
    cases hc'
    obtain ⟨⟨m'', rest'⟩, hm', h⟩ := bind_eq_ok.1 h
    rw [hm] at hm'
    cases hm'
    obtain ⟨⟨c'', last⟩, -, h⟩ := bind_eq_ok.1 h
    dsimp only at h
    split at h
    · exact Except.ok.inj h
    · cases h
  subst hmember
  have hne : r ≠ [] := by
    rintro rfl
    exact absurd (member_length hm) (Nat.not_lt_zero _)
  obtain ⟨hend, g, cs, rfl, hg, rfl⟩ := exists_gap hc hne
  obtain ⟨d, alone, more, rfl, hd, -, -, rfl, rfl⟩ := member_eq_ok hend hm
  exact ⟨g, cs, d, alone, more, rfl, hg, hd, rfl, hblank⟩

/-- Texts on lines of their own that are read as single members make up a class body. -/
theorem body_classAround {ps : List (Text × Member)}
    (h : ∀ p ∈ ps, Member.parse p.1 = .ok p.2 ∧ EndsBlank p.1) {w : Text} (hw : Within Byte.isBlank w) :
    Body (w ++ ((ps.map Prod.fst).flatMap (· ++ newline) ++ [Byte.closeBrace])) (ps.map Prod.snd) none [] := by
  induction ps generalizing w with
  | nil => exact .close (Scan.isGap_blanks hw)
  | cons p ps ih =>
    obtain ⟨s, m⟩ := p
    obtain ⟨hread, hs⟩ := h (s, m) List.mem_cons_self
    obtain ⟨g, cs, d, alone, more, rfl, hg, hd, rfl, hblank⟩ := exists_declares hread hs
    have hrest := ih (fun q hq => h q (List.mem_cons_of_mem _ hq))
      (w := (Scan.trailing more).2 ++ newline) (within_append.2 ⟨hblank, by decide⟩)
    have htrailing := Scan.trailing_append_lineEnd (e := Byte.lineFeed) (by decide) more
      ((ps.map Prod.fst).flatMap (· ++ newline) ++ [Byte.closeBrace])
    have hbody := Body.member ((Scan.isGap_blanks hw).append hg) hd
      (by rw [htrailing]; simpa [newline] using hrest)
    rw [htrailing] at hbody
    simpa [newline] using hbody

/-- The header of such a class. -/
theorem header_classAround (t : Text) :
    header (utf8 " namespace A; class C \x7b" ++ (newline ++ t)) =
      .ok (ClassFile.new (utf8 "A") (utf8 "C"), newline ++ t) := by
  have hbrace := Scan.gapEnd_cons (b := Byte.openBrace) (t := newline ++ t) (by decide) (by decide)
  have hclass : Scan.GapEnd (utf8 "class C \x7b" ++ (newline ++ t)) :=
    Scan.gapEnd_name (w := utf8 "class") (by decide) (utf8 " C \x7b" ++ (newline ++ t))
  have hspace := namespaceName_append (Scan.isGap_blanks (w := [Byte.space]) (by decide)) (p := utf8 "A")
    ⟨by decide, by decide, by decide +kernel⟩ ([Byte.space] ++ (utf8 "class C \x7b" ++ (newline ++ t)))
  rw [Scan.trailing_of_gapEnd (by decide) hclass] at hspace
  have himports := imports_class Scan.IsGap.nil .normal (utf8 "C \x7b" ++ (newline ++ t))
  have hident : IsIdent (utf8 "C") := by decide
  have hap : Apart Byte.isIdent (Byte.space :: Byte.openBrace :: (newline ++ t)) := apart_cons.2 (by decide)
  have hname := classSignature_append .normal hident hap
  have hread := header_of_parts none [] hspace himports hname (by simp) (by simp) (endsClause_space hbrace)
  rw [show newline ++ t = Byte.lineFeed :: t from rfl, Scan.trailing_lineEnd (by decide)] at hread
  exact hread

end Grammar

/-- **A member is read in a class as it is read on its own.** Texts that are read as single members, and
behind which nothing stands but a line comment and blanks, make up a class with exactly these members. Where
the name of a member is taken, the class cannot be read for the same reason for which the member cannot be
added. -/
theorem ClassFile.parse_classAround {ps : List (Text × Member)}
    (h : ∀ p ∈ ps, Member.parse p.1 = .ok p.2 ∧ EndsBlank p.1) :
    match ({} : ClassContent).addAll (ps.map Prod.snd) with
    | .ok content => ClassFile.parse (classAround (ps.map Prod.fst)) = .ok {
        ClassFile.new (utf8 "A") (utf8 "C") with source := classAround (ps.map Prod.fst), content } ∧
      content.closingComment = none
    | .error d => ClassFile.parse (classAround (ps.map Prod.fst)) = .error (.duplicate d) := by
  have ht : classAround (ps.map Prod.fst) = utf8 "<?php" ++ (utf8 " namespace A; class C \x7b" ++
      (newline ++ ((ps.map Prod.fst).flatMap (· ++ newline) ++ [Byte.closeBrace]))) := by
    unfold classAround
    rw [show utf8 "<?php namespace A; class C \x7b" = utf8 "<?php" ++ utf8 " namespace A; class C \x7b" by decide]
    simp only [List.append_assoc]
  have hbody := Grammar.body_eq (Grammar.body_classAround h (w := newline) (by decide)) {}
  have hheader := Grammar.header_classAround ((ps.map Prod.fst).flatMap (· ++ newline) ++ [Byte.closeBrace])
  have hstart := beyond?_append (utf8 "<?php") (utf8 " namespace A; class C \x7b" ++
    (newline ++ ((ps.map Prod.fst).flatMap (· ++ newline) ++ [Byte.closeBrace])))
  rw [← ht] at hstart
  unfold ClassFile.parse
  rw [Grammar.source_of_header hstart hheader, hbody]
  unfold Grammar.bodyResult
  cases hms : ({} : ClassContent).addAll (ps.map Prod.snd) with
  | error d => rfl
  | ok content =>
    have hclosing : content.closingComment = none :=
      ((ClassContent.addAll_eq_ok ClassContent.holds_empty).1 hms).2
    have hsame : { content with closingComment := none } = content := by rw [← hclosing]
    exact ⟨by dsimp only; rw [hsame]; rfl, hclosing⟩

/-- A constant with a line comment behind it and the use of a trait make up a class, and twice the use does
not. -/
theorem ClassFile.classAround_read :
    (∃ content, ClassFile.parse (classAround [utf8 "const N = 1; // one", utf8 "use T;"]) = .ok {
      ClassFile.new (utf8 "A") (utf8 "C") with
        source := classAround [utf8 "const N = 1; // one", utf8 "use T;"], content } ∧
      content.size = 2) ∧
    ClassFile.parse (classAround [utf8 "use T;", utf8 "use T;"]) =
      .error (.duplicate (.member .traitUse (utf8 "T"))) := by
  let constant : Member := .constant ⟨⟨utf8 "N", utf8 "1", .pub⟩, none, some (utf8 "one")⟩
  let traitUse : Member := .traitUse ⟨utf8 "T", none, none⟩
  have hconstant : Member.parse (utf8 "const N = 1; // one") = .ok constant ∧
      EndsBlank (utf8 "const N = 1; // one") :=
    ⟨by decide +kernel, none, utf8 "const N = 1; // one", constant, [], by decide +kernel, by decide +kernel,
      by decide⟩
  have htraitUse : Member.parse (utf8 "use T;") = .ok traitUse ∧ EndsBlank (utf8 "use T;") :=
    ⟨by decide +kernel, none, utf8 "use T;", traitUse, [], by decide +kernel, by decide +kernel, by decide⟩
  constructor
  · have hall : ∀ p ∈ [(utf8 "const N = 1; // one", constant), (utf8 "use T;", traitUse)],
        Member.parse p.1 = .ok p.2 ∧ EndsBlank p.1 := by
      simpa using ⟨hconstant, htraitUse⟩
    have hread := ClassFile.parse_classAround hall
    obtain ⟨content, hadd, hsize⟩ := map_toOption_eq_some.1
      (show (({} : ClassContent).addAll [constant, traitUse]).toOption.map ClassContent.size = some 2 by
        decide +kernel)
    dsimp only [List.map] at hread
    rw [hadd] at hread
    exact ⟨content, hread.1, hsize⟩
  · have hall : ∀ p ∈ [(utf8 "use T;", traitUse), (utf8 "use T;", traitUse)],
        Member.parse p.1 = .ok p.2 ∧ EndsBlank p.1 := by
      simpa using htraitUse
    have hread := ClassFile.parse_classAround hall
    have hadd : ({} : ClassContent).addAll [traitUse, traitUse] = .error (.member .traitUse (utf8 "T")) := by
      rfl
    dsimp only [List.map] at hread
    rw [hadd] at hread
    exact hread

end PhpClass
