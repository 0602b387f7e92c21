import PhpClass.Proofs.Body
import PhpClass.Proofs.HeaderText

/-!
# Gaps in headers

The names in a header do not depend on the gaps between its words. Behind a word the search for a line comment reads
a part of the gap, and the rest of the gap is read in front of the next word (`Scan.exists_trailing`). So each part of a
header is followed by what the next part is read from, whatever the comments in between say (`Grammar.LeadsTo`), even
where they look like other parts.

* `ClassFile.parse_of_spelled`: a class file with an empty body is read from each of its spellings.
-/

namespace PhpClass

open Text

namespace Scan

/-- Behind a word a part of the gap is read with the line comment, and a gap is left. -/
theorem exists_trailing {g r : Text} (hg : IsGapText g) (hr : GapEnd r) :
    ∃ g', IsGapText g' ∧ (trailing (g ++ r)).2 = g' ++ r := by
  obtain ⟨cs, hg⟩ := hg
  induction hg with
  | nil =>
    have hread := trailing_of_gapEnd (within_nil _) hr
    exact ⟨[], isGapText_nil, by rw [List.nil_append] at hread ⊢; rw [hread]⟩
  | @blank b g cs hb hg ih =>
    by_cases hgap : Byte.isGap b = true
    · obtain ⟨g', hg', ht⟩ := ih
      have hskip : lineComment (b :: g ++ r) = lineComment (g ++ r) := by
        unfold lineComment
        rw [List.cons_append, List.dropWhile_cons, if_pos hgap]
      exact ⟨g', hg', by rw [trailing_eq, hskip]; exact ht⟩
    · have hend : Byte.isLineEnd b = true := by simpa [Byte.isBlank, hgap] using hb
      exact ⟨b :: g, ⟨cs, .blank hb hg⟩, by rw [List.cons_append, trailing_lineEnd hend]⟩
  | @block inside g cs hi hg _ =>
    have hap : Apart Byte.isGap (utf8 "/*" ++ (inside ++ utf8 "*/" ++ g ++ r)) := by
      rw [blockStart]
      exact apart_cons.2 (by decide)
    have hno : startsWith (utf8 "//") (utf8 "/*" ++ (inside ++ utf8 "*/" ++ g ++ r)) = false := by
      have hne : ascii '/' ≠ ascii '*' := by decide
      rw [blockStart, lineStart]
      simp [startsWith, after?, hne]
    have hread := lineComment_none (within_nil _) hap hno
    refine ⟨_, ⟨_, .block hi hg⟩, ?_⟩
    rw [List.nil_append] at hread
    simp only [List.append_assoc] at hread ⊢
    rw [trailing_eq, hread]
  | @line inside g e cs hi he hg _ =>
    have hap : Apart isInLine (e :: (g ++ r)) := apart_cons.2 (by simp [isInLine, he])
    have hread := lineComment_some (within_nil _) hi hap
    refine ⟨e :: g, ⟨cs, hg⟩, ?_⟩
    rw [List.nil_append] at hread
    rw [List.append_assoc, List.cons_append, trailing_eq, hread]

/-- In front of a gap no name goes on, if there is a gap. -/
theorem IsGapText.apart_name {g : Text} (h : IsGapText g) (hne : g ≠ []) (t : Text) : Apart Byte.isName (g ++ t) := by
  obtain ⟨b, g, rfl, hb⟩ := h.head hne
  refine apart_cons.2 (Bool.eq_false_iff.2 fun hname => ?_)
  obtain ⟨hblank, hslash, -⟩ := Byte.isName_spec b hname
  rcases hb with hb | rfl
  · rw [hb] at hblank
    cases hblank
  · exact hslash rfl

end Scan

theorem Text.Apart.isIdent {t : Text} (h : Apart Byte.isName t) : Apart Byte.isIdent t := by
  intro b hb
  exact Bool.eq_false_iff.2 fun hident => Bool.false_ne_true ((h b hb).symm.trans (Byte.isName_of_isIdent b hident))

/-! ## The names of a header and how they are spelled -/

/-- What a header says. -/
structure HeaderNames where
  namespaceName : Text
  imports : List Text
  kind : ClassKind
  className : Text
  parent : Option Text
  interfaces : List Text
  deriving DecidableEq

/-- What the header of a class file says. -/
def ClassFile.headerNames (f : ClassFile) : HeaderNames where
  namespaceName := f.namespaceName.payload
  imports := f.imports.map Element.payload
  kind := f.signature.payload.kind
  className := f.className
  parent := f.parentName?
  interfaces := f.interfaces

namespace Grammar

open Scan (IsGapText IsStatement)

/-- Imports, each with a gap in front of it. -/
inductive SpellsImports : List Text → Text → Prop where
  | nil : SpellsImports [] []
  | cons {g w q t : Text} {names : List Text} (hg : IsGapText g) (hw : IsBlanks w) (hq : IsStatement false q)
      (ht : SpellsImports names t) :
      SpellsImports (q :: names) (g ++ (utf8 "use" ++ (w ++ (q ++ ascii ';' :: t))))

/-- The class that is extended, with the gap behind the class name. -/
inductive SpellsParent : Option Text → Text → Prop where
  | none : SpellsParent none []
  | some {g g' p : Text} (hg : IsGapText g) (hne : g ≠ []) (hg' : IsGapText g') (hne' : g' ≠ []) (hp : IsName p) :
      SpellsParent (some p) (g ++ (utf8 "extends" ++ (g' ++ p)))

/-- Names of interfaces with commas between them. -/
inductive SpellsNames : List Text → Text → Prop where
  | last {n : Text} (hn : IsName n) : SpellsNames [n] n
  | cons {g g' n t : Text} {names : List Text} (hn : IsName n) (hg : IsGapText g) (hg' : IsGapText g')
      (ht : SpellsNames names t) : SpellsNames (n :: names) (n ++ (g ++ ascii ',' :: (g' ++ t)))

/-- The interfaces, with the gap in front of the clause. -/
inductive SpellsInterfaces : List Text → Text → Prop where
  | nil : SpellsInterfaces [] []
  | some {g g' t : Text} {names : List Text} (hg : IsGapText g) (hne : g ≠ []) (hg' : IsGapText g') (hne' : g' ≠ [])
      (ht : SpellsNames names t) : SpellsInterfaces names (g ++ (utf8 "implements" ++ (g' ++ t)))

/-- A class file with this header and nothing in its class. -/
inductive SpellsFile : HeaderNames → Text → Prop where
  | mk {n : HeaderNames} {g w imports g' kind w' parent interfaces g'' : Text} {b : UInt8}
      (hg : IsGapText g) (hw : IsBlanks w) (hname : IsStatement false n.namespaceName)
      (himports : SpellsImports n.imports imports) (hg' : IsGapText g') (hkind : SpellsKind n.kind kind)
      (hw' : IsBlanks w') (hclass : IsIdent n.className) (hparent : SpellsParent n.parent parent)
      (hinterfaces : SpellsInterfaces n.interfaces interfaces) (hg'' : IsGapText g'') (hb : Byte.isBlank b = true) :
      SpellsFile n (utf8 "<?php" ++ (g ++ (utf8 "namespace" ++ (w ++ (n.namespaceName ++ ascii ';' :: (imports ++
        (g' ++ (kind ++ (utf8 "class" ++ (w' ++ (n.className ++ (parent ++ (interfaces ++
          (g'' ++ [Byte.openBrace, b, Byte.closeBrace]))))))))))))))

/-! ## What is read of a spelling -/

/-- Behind a word the text leads over a gap to what is read next. -/
structure LeadsTo (u r : Text) : Prop where
  apart : Apart Byte.isName u
  comment : ∃ c, Grammar.comment (Scan.trailing u).2 = .ok (c, r)

variable {g u r : Text}

theorem comment_gap (hg : IsGapText g) (hr : Scan.GapEnd r) : ∃ c, comment (g ++ r) = .ok (c, r) := by
  obtain ⟨cs, hg⟩ := hg
  exact ⟨_, comment_append hg hr⟩

theorem comment_trailing (hg : IsGapText g) (hr : Scan.GapEnd r) :
    ∃ c, comment (Scan.trailing (g ++ r)).2 = .ok (c, r) := by
  obtain ⟨g', hg', ht⟩ := Scan.exists_trailing hg hr
  rw [ht]
  exact comment_gap hg' hr

theorem leadsTo_gap (hg : IsGapText g) (hne : g ≠ []) (hr : Scan.GapEnd r) : LeadsTo (g ++ r) r :=
  ⟨hg.apart_name hne r, comment_trailing hg hr⟩

/-- A byte that no name holds may follow a word without a gap. -/
theorem leadsTo_byte (hg : IsGapText g) {b : UInt8} {t : Text} (hname : Byte.isName b = false)
    (hr : Scan.GapEnd (b :: t)) : LeadsTo (g ++ b :: t) (b :: t) := by
  refine ⟨?_, comment_trailing hg hr⟩
  by_cases hne : g = []
  · rw [hne, List.nil_append]
    exact apart_cons.2 hname
  · exact hg.apart_name hne _

theorem imports_spelled {names : List Text} {t : Text} (ht : SpellsImports names t) (hg : IsGapText g)
    (hr : Scan.GapEnd r) (hk : keyword? (utf8 "use") r = none) :
    ∃ es c, imports (Scan.trailing (t ++ (g ++ r))).2 = .ok (es, c, r) ∧ es.map Element.payload = names := by
  induction ht with
  | nil =>
    obtain ⟨c, hc⟩ := comment_trailing hg hr
    exact ⟨[], c, imports_of_none hc hk, rfl⟩
  | @cons g₁ w q t names hg₁ hw hq _ ih =>
    obtain ⟨es, c, hes, hnames⟩ := ih
    have hword : Scan.GapEnd (utf8 "use" ++ (w ++ (q ++ ascii ';' :: (t ++ (g ++ r))))) := Scan.gapEnd_name (by decide) _
    obtain ⟨c₁, hc₁⟩ := comment_trailing hg₁ hword
    have huse := imports_of_use hc₁ (keyword?_eq_some.2 ⟨rfl, hw.apart _⟩) (importName_blanks c₁ hw hq (t ++ (g ++ r)))
    refine ⟨⟨q, c₁, (Scan.trailing (t ++ (g ++ r))).1⟩ :: es, c, ?_, by rw [List.map_cons, hnames]⟩
    simp only [List.append_assoc, List.cons_append]
    rw [huse, hes]
    rfl

theorem SpellsNames.gapEnd {names : List Text} {t : Text} (ht : SpellsNames names t) (u : Text) :
    Scan.GapEnd (t ++ u) := by
  cases ht with
  | last hn => exact Scan.gapEnd_name hn u
  | cons hn _ _ _ =>
    rw [List.append_assoc]
    exact Scan.gapEnd_name hn _

theorem interfaceName_spelled {n : Text} (hg : IsGapText g) (hn : IsName n) (hu : LeadsTo u r) :
    ∃ i, interfaceName (g ++ (n ++ u)) = .ok (i, r) ∧ i.names = [n] := by
  obtain ⟨before, hbefore⟩ := comment_gap hg (Scan.gapEnd_name hn u)
  obtain ⟨behind, hbehind⟩ := hu.comment
  exact ⟨⟨[n], [before, behind], [(Scan.trailing u).1]⟩, bind_eq_ok.2 ⟨_, hbefore,
    bind_eq_ok.2 ⟨_, name_of_isName hn hu.apart, bind_eq_ok.2 ⟨_, hbehind, rfl⟩⟩⟩, rfl⟩

theorem interfaces_spelled {names : List Text} {t : Text} (ht : SpellsNames names t) (hg : IsGapText g)
    (hu : LeadsTo u r) (hr : after? (utf8 ",") r = none) :
    ∃ i, interfaces (g ++ (t ++ u)) = .ok (i, r) ∧ i.names = names := by
  induction ht generalizing g with
  | last hn =>
    obtain ⟨i, hi, hnames⟩ := interfaceName_spelled hg hn hu
    exact ⟨i, interfaces_last hi hr, hnames⟩
  | @cons g₁ g₂ n t names hn hg₁ hg₂ ht ih =>
    have hcomma : LeadsTo (g₁ ++ ascii ',' :: (g₂ ++ (t ++ u))) (ascii ',' :: (g₂ ++ (t ++ u))) :=
      leadsTo_byte hg₁ (by decide) (Scan.gapEnd_cons (by decide) (by decide))
    obtain ⟨i, hi, hfirst⟩ := interfaceName_spelled hg hn hcomma
    obtain ⟨g', hg', htrailing⟩ := Scan.exists_trailing hg₂ (ht.gapEnd u)
    obtain ⟨j, hj, hrest⟩ := ih hg'
    have hall := interfaces_comma hi (by rw [htrailing]; exact hj)
    refine ⟨(i.append { trailing := [(Scan.trailing (g₂ ++ (t ++ u))).1] }).append j, ?_, ?_⟩
    · simp only [List.append_assoc, List.cons_append]
      exact hall
    · simp [Interfaces.append, hfirst, hrest]

/-- The text in front of the opening brace leads to the interfaces, and the interfaces to the brace. -/
theorem implements_spelled {names : List Text} {t : Text} (ht : SpellsInterfaces names t) (hg : IsGapText g)
    (rest : Text) : ∃ r i, LeadsTo (t ++ (g ++ Byte.openBrace :: rest)) r ∧ keyword? (utf8 "extends") r = none ∧
      implementsClause r = .ok (i, Byte.openBrace :: rest) ∧ i.names = names := by
  have hend : Scan.GapEnd (Byte.openBrace :: rest) := Scan.gapEnd_cons (by decide) (by decide)
  have hbrace : LeadsTo (g ++ Byte.openBrace :: rest) (Byte.openBrace :: rest) := leadsTo_byte hg (by decide) hend
  cases ht with
  | nil =>
    exact ⟨_, {}, hbrace, keyword?_eq_none_of_apart (by decide) (by decide) (apart_cons.2 (by decide)),
      implements_none, rfl⟩
  | @some g₁ g₂ t _ hg₁ hne₁ hg₂ hne₂ ht =>
    obtain ⟨i, hi, hnames⟩ := interfaces_spelled ht hg₂ hbrace (show after? (utf8 ",") (Byte.openBrace :: rest) = none from rfl)
    have hap : Apart Byte.isIdent (g₂ ++ (t ++ (g ++ Byte.openBrace :: rest))) := (hg₂.apart_name hne₂ _).isIdent
    refine ⟨utf8 "implements" ++ (g₂ ++ (t ++ (g ++ Byte.openBrace :: rest))), i, ?_, ?_, ?_, hnames⟩
    · simp only [List.append_assoc]
      exact leadsTo_gap hg₁ hne₁ (Scan.gapEnd_name (by decide) _)
    · exact keyword?_eq_none_of_ne (by decide) (by decide) hap (by decide)
    · unfold implementsClause
      rw [keyword?_eq_some.2 ⟨rfl, hap⟩]
      exact hi

/-- The text behind a class name leads to the extended class, and this to what comes next. -/
theorem extends_spelled {parent : Option Text} {t : Text} (ht : SpellsParent parent t) (hu : LeadsTo u r)
    (hk : keyword? (utf8 "extends") r = none) : Apart Byte.isIdent (t ++ u) ∧
      ∃ e c, extendsClause (Scan.trailing (t ++ u)).2 = .ok ((e, c), r) ∧ e.map Element.payload = parent := by
  cases ht with
  | none =>
    obtain ⟨c, hc⟩ := hu.comment
    refine ⟨hu.apart.isIdent, none, c, bind_eq_ok.2 ⟨_, hc, ?_⟩, rfl⟩
    dsimp only
    rw [hk]
    rfl
  | @some g₁ g₂ p hg₁ hne₁ hg₂ hne₂ hp =>
    have hword : Scan.GapEnd (utf8 "extends" ++ (g₂ ++ (p ++ u))) := Scan.gapEnd_name (by decide) _
    obtain ⟨hap, c₁, hc₁⟩ := leadsTo_gap hg₁ hne₁ hword
    obtain ⟨c₂, hc₂⟩ := comment_gap hg₂ (Scan.gapEnd_name hp u)
    obtain ⟨c₃, hc₃⟩ := hu.comment
    have hparent : parentName c₁ (g₂ ++ (p ++ u)) =
        .ok (⟨p, joinComments? [c₁, c₂], (Scan.trailing u).1⟩, (Scan.trailing u).2) :=
      bind_eq_ok.2 ⟨_, hc₂, bind_eq_ok.2 ⟨_, name_of_isName hp hu.apart, rfl⟩⟩
    simp only [List.append_assoc]
    refine ⟨hap.isIdent, some ⟨p, joinComments? [c₁, c₂], (Scan.trailing u).1⟩, c₃, bind_eq_ok.2 ⟨_, hc₁, ?_⟩, rfl⟩
    dsimp only
    rw [keyword?_eq_some.2 ⟨rfl, (hg₂.apart_name hne₂ _).isIdent⟩]
    exact bind_eq_ok.2 ⟨_, hparent, bind_eq_ok.2 ⟨_, hc₃, rfl⟩⟩

/-- What follows the imports is no import. -/
theorem classKind_gapEnd {k : ClassKind} {t rest : Text} (ht : SpellsKind k t) (hrest : Apart Byte.isIdent rest) :
    Scan.GapEnd (t ++ (utf8 "class" ++ rest)) ∧ keyword? (utf8 "use") (t ++ (utf8 "class" ++ rest)) = none := by
  obtain ⟨word, last, hword, hne, hlast, he⟩ := exists_classWord ht hrest
  rw [he]
  exact ⟨Scan.gapEnd_name hword.isName _, keyword?_eq_none_of_ne (by decide) hword.within hlast hne.symm⟩

theorem bodyStart_brace (rest : Text) : bodyStart (Byte.openBrace :: rest) = .ok rest := by
  unfold bodyStart
  rw [show Byte.openBrace :: rest = [Byte.openBrace] ++ rest from rfl, after?_append]

/-- A header is read from each of its spellings, up to the line comment behind the opening brace. -/
theorem header_spelled {n : HeaderNames} {t : Text} (ht : SpellsFile n t) : ∃ r f b, t = utf8 "<?php" ++ r ∧
    Byte.isBlank b = true ∧ header r = .ok (f, (Scan.trailing [b, Byte.closeBrace]).2) ∧ f.headerNames = n := by
  cases ht with
  | @mk g₁ w imports g₂ kind w' parent interfaces g₃ b hg₁ hw hname himports hg₂ hkind hw' hclass hparent hinterfaces
      hg₃ hb =>
    obtain ⟨cs, hg₁⟩ := hg₁
    obtain ⟨r, i, hleads, hother, himplements, hi⟩ := implements_spelled hinterfaces hg₃ [b, Byte.closeBrace]
    obtain ⟨hap, e, c, hextends, he⟩ := extends_spelled hparent hleads hother
    have hsignature := classSignature_spelled hkind hw' hclass hap
    obtain ⟨hend, huse⟩ := classKind_gapEnd hkind (hw'.apart (n.className ++ (parent ++ (interfaces ++
      (g₃ ++ [Byte.openBrace, b, Byte.closeBrace])))))
    obtain ⟨es, pending, hes, hnames⟩ := imports_spelled himports hg₂ hend huse
    have hspace := namespaceName_blanks hg₁ hw hname (imports ++ (g₂ ++ (kind ++ (utf8 "class" ++ (w' ++
      (n.className ++ (parent ++ (interfaces ++ (g₃ ++ [Byte.openBrace, b, Byte.closeBrace])))))))))
    refine ⟨_, _, b, rfl, hb, bind_eq_ok.2 ⟨_, hspace, bind_eq_ok.2 ⟨_, hes, bind_eq_ok.2 ⟨_, hsignature,
      bind_eq_ok.2 ⟨_, hextends, bind_eq_ok.2 ⟨_, himplements, bind_eq_ok.2 ⟨_, bodyStart_brace _, rfl⟩⟩⟩⟩⟩⟩, ?_⟩
    unfold ClassFile.headerNames ClassFile.className ClassFile.parentName?
    rw [hnames, he, hi]

end Grammar

/-- **The layout of a header does not matter.** A class file is read from each spelling of its header, with any gaps
between its parts and an empty body, and what is read of the header is what it says. -/
theorem ClassFile.parse_of_spelled {n : HeaderNames} {t : Text} (h : Grammar.SpellsFile n t) :
    ∃ f, ClassFile.parse t = .ok f ∧ f.headerNames = n := by
  obtain ⟨r, f, b, rfl, hb, hheader, hnames⟩ := Grammar.header_spelled h
  have hbrace : Scan.GapEnd [Byte.closeBrace] := Scan.gapEnd_cons (by decide) (by decide)
  obtain ⟨g, ⟨cs, hg⟩, hrest⟩ := Scan.exists_trailing (Scan.isGapText_blanks (w := [b]) (by simpa using hb)) hbrace
  have hclose : Grammar.Body (g ++ [Byte.closeBrace]) [] (Scan.kept (join newline cs)) [] := .close hg
  have hbody := Grammar.body_eq hclose {}
  have htrailing : (Scan.trailing [b, Byte.closeBrace]).2 = g ++ [Byte.closeBrace] := hrest
  have hread := Grammar.source_of_header (beyond?_append (utf8 "<?php") r) hheader
  rw [htrailing, hbody] at hread
  refine ⟨{ f with
    content := { ({} : ClassContent) with closingComment := Scan.kept (join newline cs) }
    source := utf8 "<?php" ++ r }, ?_, hnames⟩
  unfold ClassFile.parse
  rw [hread]
  rfl

/-- Comments that look like parts of a header are none. -/
theorem ClassFile.parse_disguised : ∃ f, ClassFile.parse
      (utf8 "<?php// namespace B;\nnamespace\tA;/*use C;*/use  D as E;final\nclass F/*implements G*/extends//,\nH{ }") =
        .ok f ∧
      f.headerNames = ⟨utf8 "A", [utf8 "D as E"], .final, utf8 "F", some (utf8 "H"), []⟩ := by
  have hline : Scan.IsGapText (utf8 "//" ++ utf8 " namespace B;" ++ [Byte.lineFeed]) :=
    ⟨_, .line (by decide) (by decide) (.blank (by decide) .nil)⟩
  have hblock : Scan.IsGapText (utf8 "/*" ++ utf8 "use C;" ++ utf8 "*/" ++ []) := ⟨_, .block (by decide) .nil⟩
  have himplements : Scan.IsGapText (utf8 "/*" ++ utf8 "implements G" ++ utf8 "*/" ++ []) := ⟨_, .block (by decide) .nil⟩
  have hcomma : Scan.IsGapText (utf8 "//" ++ utf8 "," ++ [Byte.lineFeed]) :=
    ⟨_, .line (by decide) (by decide) (.blank (by decide) .nil)⟩
  have hspelled := Grammar.SpellsFile.mk
    (n := ⟨utf8 "A", [utf8 "D as E"], .final, utf8 "F", some (utf8 "H"), []⟩) (b := Byte.space)
    hline (w := utf8 "\t") ⟨by decide, by decide⟩ ⟨by decide, by decide, by decide +kernel⟩
    (.cons hblock (w := utf8 "  ") ⟨by decide, by decide⟩ ⟨by decide, by decide, by decide +kernel⟩ .nil)
    Scan.isGapText_nil ⟨utf8 "\n", ⟨by decide, by decide⟩, rfl⟩ Text.isBlanks_space (by decide)
    (.some himplements (by decide) hcomma (by decide) (by decide)) .nil Scan.isGapText_nil (by decide)
  obtain ⟨f, hread, hnames⟩ := ClassFile.parse_of_spelled hspelled
  exact ⟨f, (congrArg ClassFile.parse (by decide +kernel)).trans hread, hnames⟩

end PhpClass
