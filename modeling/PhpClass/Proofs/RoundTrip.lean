import PhpClass.Proofs.ContentText

/-!
# Round trips

A class file that can be written is read back from what is written of it, in every layout of blanks
(`ClassFile.parse_render`). What is read back is the file itself up to what is not written: a comment without
visible text is lost, one that stands behind an element is put on one line, each member stands under its own
name, and the comments of the header are those of the class, except that the extended class may take the
one behind it (`ClassFile.reread`).

Each file that is read can be written, and differs from what is read back only in its header
(`ClassFile.normalised`), for all its comments are such as are read. So writing a file that was read, reading
this and writing it again gives the same text. Only a comment of which a line cannot be told from its
neighbours in line comments has to be excluded (`Comment.Writable`).

Since none of this depends on the layout, neither does what is read back (`ClassFile.parse_render_of_parse`).
-/

namespace PhpClass

open Text

namespace ClassFile

/-! ## Files that can be written -/

/-- A class file that can be written. -/
structure Writable (f : ClassFile) : Prop where
  header : f.HeaderWritable
  content : f.content.Writable

/-- The comments that are written on lines of their own. -/
def leadingComments (f : ClassFile) : List (Option Text) := f.headerComments ++ f.content.leadingComments

/-- A class file that is read back: it can be written, and so can its comments. -/
structure Printable (f : ClassFile) : Prop extends f.Writable where
  comments : ∀ c ∈ f.leadingComments, ∀ t ∈ c, Comment.Writable t

/-- The class file as it is read back from what is written of it. -/
def reread (f : ClassFile) : ClassFile := { f.rereadHeader with content := f.content.reread }

theorem render_pieces (l : Layout) (f : ClassFile) : l.render f.pieces =
    utf8 "<?php" ++ (l.newline ++ l.newline ++ (l.render f.namespacePieces ++
      (l.render (f.imports.flatMap importPieces) ++ (l.newline ++ (l.render f.headerPieces ++
        Byte.openBrace ::
          (l.newline ++ (l.newline ++ (l.render f.content.pieces ++ [Byte.closeBrace])))))))) := by
  simp [pieces, show utf8 "\x7b" = [Byte.openBrace] by decide, show utf8 "\x7d" = [Byte.closeBrace] by decide]

/-- A class file is read back from what is written of it in a layout of blanks. -/
theorem parse_render {l : Layout} (hl : l.Blank) {f : ClassFile} (h : f.Printable) :
    ClassFile.parse (l.render f.pieces) = .ok { f.reread with source := l.render f.pieces } := by
  have hheader := Grammar.header_render hl h.header (fun c hc => h.comments c (List.mem_append_left _ hc))
    (within_append.2 ⟨hl.newline, hl.newline⟩) (l.newline ++ (l.render f.content.pieces ++ [Byte.closeBrace]))
  have hbody := Grammar.body_render hl h.content (fun c hc => h.comments c (List.mem_append_right _ hc))
    (within_append.2 ⟨hl.newline, hl.newline⟩) []
  have hread := Grammar.source_of_header
    ((congrArg (beyond? (utf8 "<?php")) (render_pieces l f)).trans (beyond?_append _ _)) hheader
  unfold ClassFile.parse
  rw [hread, ← List.append_assoc l.newline, hbody]
  rfl

/-- **Writing and reading back.** A class file that can be written is read back from its canonical form. -/
theorem parse_generate {f : ClassFile} (h : f.Printable) :
    ClassFile.parse f.generate = .ok { f.reread with source := f.generate } :=
  parse_render Layout.blank_standard h

/-- A class with a comment on two lines behind its header and a constant with a comment that has to be written
in line comments. -/
theorem exists_printable_read : ∃ f : ClassFile, f.Printable ∧
    f.headerTrailing = some (utf8 "wide\nbase") ∧
    f.content.leadingComments = [some (utf8 "ends in\n */"), none] ∧
    ClassFile.parse f.generate = .ok { f.reread with source := f.generate } ∧
    f.reread.headerTrailing = some (utf8 "wide base") := by
  let constant : Element Constant := ⟨⟨utf8 "N", utf8 "';'", .pub⟩, some (utf8 "ends in\n */"), none⟩
  let f : ClassFile := { ClassFile.new (utf8 "A") (utf8 "C") with
    parent := some ⟨utf8 "B", none, some (utf8 "wide\nbase")⟩
    content := { constants := .keyed (fun e => e.payload.name) [constant] } }
  have hmembers : f.content.members = [.constant constant] := by decide +kernel
  have hheader : f.HeaderWritable :=
    ⟨⟨by decide, by decide, by decide +kernel⟩, by simp [f, ClassFile.new], by decide, by decide, by decide⟩
  have hcontent : f.content.Writable := by
    refine ⟨fun m hm => ?_, by decide +kernel, by decide +kernel, by decide +kernel, by decide +kernel⟩
    rw [hmembers, List.mem_singleton] at hm
    rw [hm]
    exact ⟨by decide, by decide, by decide, by decide +kernel⟩
  have hf : f.Printable := ⟨⟨hheader, hcontent⟩, by decide +kernel⟩
  exact ⟨f, hf, by decide, by decide +kernel, ClassFile.parse_generate hf, by decide⟩

/-! ## Files that are read -/

/-- The class file with the comments of its header where they are read back: those in front of the class and
of the extended class together in front of the class, and one behind the header. -/
def normalised (f : ClassFile) : ClassFile :=
  { f with
    signature := ⟨f.signature.payload, f.headerComment,
      if Grammar.parentTakes f.parentName? f.interfaces then none else f.headerTrailing⟩
    parent := f.parent.map fun p =>
      ⟨p.payload, none, if f.interfaces.isEmpty then f.headerTrailing else none⟩ }

theorem headerComment_normalised (f : ClassFile) : f.normalised.headerComment = f.headerComment := by
  unfold headerComment normalised
  refine joinComments?_cons_none fun d hd => ?_
  rw [List.mem_singleton.1 hd]
  cases f.parent <;> rfl

theorem headerTrailing_normalised (f : ClassFile) : f.normalised.headerTrailing = f.headerTrailing := by
  have htrailing : f.normalised.headerTrailing =
      (if Grammar.parentTakes f.parentName? f.interfaces then none else f.headerTrailing).or
        (f.parent.bind fun _ => if f.interfaces.isEmpty then f.headerTrailing else none) := by
    unfold normalised
    cases f.parent <;> rfl
  rw [htrailing]
  unfold Grammar.parentTakes parentName?
  cases f.parent <;> cases f.interfaces <;> simp

/-- The comments of a header are written in the same way wherever they stand. -/
theorem pieces_normalised (f : ClassFile) : f.normalised.pieces = f.pieces := by
  have hparent : f.normalised.parentName? = f.parentName? := by
    unfold parentName? normalised
    rw [Option.map_map]
    rfl
  have hheader : f.normalised.headerPieces = f.headerPieces := by
    unfold headerPieces
    rw [headerComment_normalised, headerTrailing_normalised, hparent]
    rfl
  unfold pieces
  rw [hheader]
  rfl

/-- The comment in front of a header that was read is read back as it is. -/
theorem HeaderNormal.bind_headerComment {f : ClassFile} (h : f.HeaderNormal) :
    f.headerComment.bind Scan.kept = f.headerComment := by
  refine Scan.bind_kept_eq_self (isSpace_joinComments? fun c hc => ?_)
  rcases List.mem_cons.1 hc with rfl | hc
  · exact h.signature.before
  · rw [List.mem_singleton.1 hc]
    intro t ht
    obtain ⟨p, hp, ht⟩ := Option.bind_eq_some_iff.1 ht
    exact (h.parent p hp).before t ht

/-- The comment behind a header that was read is read back as it is. -/
theorem HeaderNormal.shown_headerTrailing {f : ClassFile} (h : f.HeaderNormal) :
    Comment.shown f.headerTrailing = f.headerTrailing := by
  refine Comment.shown_eq_self fun t ht => ?_
  rcases Option.or_eq_some_iff.1 ht with ht | ⟨-, ht⟩
  · exact h.signature.behind t ht
  · obtain ⟨p, hp, ht⟩ := Option.bind_eq_some_iff.1 ht
    exact (h.parent p hp).behind t ht

/-- A class file whose comments are such as are read is read back as it is, but for its header. -/
theorem reread_eq {f : ClassFile} (h : f.HeaderNormal) (hcontent : f.content.reread = f.content) :
    f.reread = { f.normalised with source := [] } := by
  have himports : f.imports.map Element.reread = f.imports := by
    rw [List.map_congr_left fun i hi => (h.imports i hi).reread_eq, List.map_id']
  unfold reread rereadHeader normalised parentName?
  rw [h.namespaceName.reread_eq, himports, h.bind_headerComment, h.shown_headerTrailing, hcontent,
    Option.map_map]
  rfl

/-- What is known of a class file that is read: its header and its members can be written, and all its
comments are such as are read. -/
theorem writable_and_normal_of_parse {t : Text} {f : ClassFile} (h : ClassFile.parse t = .ok f) :
    f.HeaderWritable ∧ f.HeaderNormal ∧ (∃ ms, f.content.Holds ms ∧ ∀ m ∈ ms, m.Writable ∧ m.Normal) ∧
      ∀ x ∈ f.content.closingComment, isSpace x = false := by
  obtain ⟨r, hd, rest, content, last, -, hh, hb, rfl⟩ := Grammar.source_eq_ok.1 (mapError_eq_ok.1 h)
  obtain ⟨hwritable, hnormal, -, -⟩ := Grammar.header_eq_ok hh
  obtain ⟨ms, closing, c, -, hms, hclosing, hadd, rfl⟩ := Grammar.exists_body hb
  have hholds : ({ c with closingComment := closing } : ClassContent).Holds ms :=
    ClassContent.holds_closing.2 ((ClassContent.addAll_eq_ok ClassContent.holds_empty).1 hadd).1
  refine ⟨?_, ?_, ⟨ms, hholds, hms⟩, hclosing⟩
  · exact ⟨hwritable.namespaceName, hwritable.imports, hwritable.className, hwritable.parent,
      hwritable.interfaces⟩
  · exact ⟨hnormal.namespaceName, hnormal.imports, hnormal.signature, hnormal.parent⟩

/-- A class file that is read can be written, and it is read back as it is, but for its header. -/
theorem reread_of_parse {t : Text} {f : ClassFile} (h : ClassFile.parse t = .ok f) :
    f.Writable ∧ f.reread = { f.normalised with source := [] } := by
  obtain ⟨hwritable, hnormal, ⟨ms, hholds, hms⟩, hclosing⟩ := writable_and_normal_of_parse h
  have hcontent := hholds.reread_eq (fun m hm => (hms m hm).2) hclosing
  exact ⟨⟨hwritable, hholds.writable fun m hm => (hms m hm).1⟩, reread_eq hnormal hcontent⟩

/-- **Reading what was written of a file that was read.** The same file is read, but for its header, and it is
written in the same way. -/
theorem parse_generate_of_parse {t : Text} {f : ClassFile} (h : ClassFile.parse t = .ok f)
    (hc : ∀ c ∈ f.leadingComments, ∀ x ∈ c, Comment.Writable x) :
    ClassFile.parse f.generate = .ok { f.normalised with source := f.generate } ∧
      ClassFile.generate { f.normalised with source := f.generate } = f.generate := by
  obtain ⟨hwritable, hreread⟩ := reread_of_parse h
  refine ⟨?_, congrArg Layout.standard.render (pieces_normalised f)⟩
  have hread := parse_render Layout.blank_standard ⟨hwritable, hc⟩
  rw [hreread] at hread
  exact hread

/-- A class whose comments are written elsewhere than where they were read: that of the extended class in
front of the class, and that behind the class name behind the extended class. -/
theorem exists_parse_normalised : ∃ f, ClassFile.parse (utf8
      "<?php namespace A; /* 1 */ class C // 2\n extends /* 3 */ B \x7b /* 4 */ use T; \x7d") = .ok f ∧
    (f.signature.trailingComment = some (utf8 "2") ∧
      f.normalised.signature.commentBefore = some (utf8 " 1 \n 3 ") ∧
      f.normalised.parent = some ⟨utf8 "B", none, some (utf8 "2")⟩) ∧
    ClassFile.parse f.generate = .ok { f.normalised with source := f.generate } ∧
    ClassFile.generate { f.normalised with source := f.generate } = f.generate := by
  have hread : (ClassFile.parse (utf8
      "<?php namespace A; /* 1 */ class C // 2\n extends /* 3 */ B \x7b /* 4 */ use T; \x7d")).toOption.map
        (fun f => decide ((f.signature.trailingComment = some (utf8 "2") ∧
          f.normalised.signature.commentBefore = some (utf8 " 1 \n 3 ") ∧
          f.normalised.parent = some ⟨utf8 "B", none, some (utf8 "2")⟩) ∧
          ∀ c ∈ f.leadingComments, ∀ x ∈ c, Comment.Writable x)) = some true := by
    decide +kernel
  obtain ⟨f, hf, hcomments⟩ := map_toOption_eq_some.1 hread
  obtain ⟨hmoved, hwritable⟩ := of_decide_eq_true hcomments
  exact ⟨f, hf, hmoved, ClassFile.parse_generate_of_parse hf hwritable⟩

/-- **The layout does not show in what is read.** In every layout of blanks a file that was read is written such
that it can be read, and what is read is the same as from its canonical form. -/
theorem parse_render_of_parse {t : Text} {f : ClassFile} (h : ClassFile.parse t = .ok f)
    (hc : ∀ c ∈ f.leadingComments, ∀ x ∈ c, Comment.Writable x) :
    ∃ g, ClassFile.parse f.generate = .ok g ∧ ∀ l : Layout, l.Blank →
      ClassFile.parse (l.render f.pieces) = .ok { g with source := l.render f.pieces } := by
  obtain ⟨hwritable, hreread⟩ := reread_of_parse h
  have hread : ∀ l : Layout, l.Blank →
      ClassFile.parse (l.render f.pieces) = .ok { f.normalised with source := l.render f.pieces } := by
    intro l hl
    have hback := parse_render hl ⟨hwritable, hc⟩
    rw [hreread] at hback
    exact hback
  exact ⟨_, hread _ Layout.blank_standard, hread⟩

/-- With a carriage return, two line feeds and a tab for a line break, and a line feed for a step of
indentation, a class is written in a different way and read as the same class. The comment on two lines in front
of the method has to be written as two line comments. -/
theorem exists_render_read : ∃ f g, ClassFile.parse (utf8
      "<?php namespace A; class C \x7b //*/\n// 1\n function f(int $x): int // 2\n \x7b return 1; \x7d \x7d") =
        .ok f ∧
    (⟨utf8 "\r\n\n\t", newline⟩ : Layout).render f.pieces ≠ f.generate ∧
    ClassFile.parse f.generate = .ok g ∧
    ClassFile.parse ((⟨utf8 "\r\n\n\t", newline⟩ : Layout).render f.pieces) =
      .ok { g with source := (⟨utf8 "\r\n\n\t", newline⟩ : Layout).render f.pieces } := by
  have hblank : (⟨utf8 "\r\n\n\t", newline⟩ : Layout).Blank :=
    ⟨⟨Byte.carriageReturn, utf8 "\n\n\t", by decide, by decide⟩, by decide, by decide⟩
  have hread : (ClassFile.parse (utf8
      "<?php namespace A; class C \x7b //*/\n// 1\n function f(int $x): int // 2\n \x7b return 1; \x7d \x7d")
        ).toOption.map (fun f => decide (
          (⟨utf8 "\r\n\n\t", newline⟩ : Layout).render f.pieces ≠ f.generate ∧
          ∀ c ∈ f.leadingComments, ∀ x ∈ c, Comment.Writable x)) = some true := by
    decide +kernel
  obtain ⟨f, hf, hcomments⟩ := map_toOption_eq_some.1 hread
  obtain ⟨hne, hwritable⟩ := of_decide_eq_true hcomments
  obtain ⟨g, hg, hlayout⟩ := ClassFile.parse_render_of_parse hf hwritable
  exact ⟨f, g, hf, hne, hg, hlayout _ hblank⟩

end ClassFile

end PhpClass
