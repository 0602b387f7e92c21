import PhpClass.Proofs.Span
import PhpClass.Proofs.WholeScan

/-!
# The longest gap

A gap is made of blanks and whole comments (`GapTo`). What is collected from a text that begins with a gap is what is
collected from the comments of the gap and then from the text behind it (`GapTo.gap_eq`). So it does not matter where
in a gap the reader is: reading it from place to place and reading it at once collect the same.

* Reading a gap stops where no blank and no comment stands, or at a comment without its end, and no gap goes on
  further (`gapAt_longest`).
* The line comment behind an element and the blanks in front of it are a gap themselves. Reading them apart from the
  gap behind them neither loses a comment nor reads one twice (`lineCommentAt_loses_nothing`).
-/

namespace PhpClass

open Text

namespace Scan

/-! ## Comments -/

/-- A whole comment, its interior, and what follows it. A block comment ends at the first place where it can, and a
line comment in front of the end of its line. -/
inductive IsComment : Text → Text → Text → Prop
  | block {inside rest : Text} (hi : ¬utf8 "*/" <:+: inside) :
      IsComment (utf8 "/*" ++ inside ++ utf8 "*/") inside rest
  | line {inside rest : Text} (hi : Within isInLine inside) (hr : Apart isInLine rest) :
      IsComment (utf8 "//" ++ inside) inside rest

/-- The text begins with the opening of a comment. -/
def BeginsComment (t : Text) : Prop := utf8 "/*" <+: t ∨ utf8 "//" <+: t

variable {t k inside rest mid : Text} {cs ds : List Text}

theorem comment?_eq_none {t : Text} : comment? t = .ok none ↔ ¬BeginsComment t := by
  rw [comment?_eq_none_iff, BeginsComment, not_or, ← startsWith_iff, ← startsWith_iff, Bool.not_eq_true,
    Bool.not_eq_true]

theorem comment?_eq_some_iff : comment? t = .ok (some (inside, rest)) ↔
    ∃ k, IsComment k inside rest ∧ t = k ++ rest := by
  constructor
  · intro h
    rcases comment?_eq_some h with ⟨rfl, hi⟩ | ⟨rfl, hi, hr⟩
    · exact ⟨_, .block (by rw [← holds_iff, hi]; decide), rfl⟩
    · exact ⟨_, .line hi hr, rfl⟩
  · rintro ⟨k, hk, rfl⟩
    cases hk with
    | block hi =>
      rw [← holds_iff, Bool.not_eq_true] at hi
      exact comment?_block hi rest
    | line hi hr => exact comment?_line hi hr

theorem IsComment.apart_blank (h : IsComment k inside rest) (t : Text) : Apart Byte.isBlank (k ++ t) := by
  cases h with
  | block | line =>
    simp only [blockStart, lineStart, List.cons_append, apart_cons]
    decide

/-! ## Gaps in front of a text -/

/-- The text is a sequence of blanks and whole comments, with these interiors, and then the rest. -/
inductive GapTo : Text → List Text → Text → Prop
  | nil {t : Text} : GapTo t [] t
  | blank {b : UInt8} {t rest : Text} {cs : List Text} (hb : Byte.isBlank b = true) (h : GapTo t cs rest) :
      GapTo (b :: t) cs rest
  | comment {k inside t rest : Text} {cs : List Text} (hk : IsComment k inside t) (h : GapTo t cs rest) :
      GapTo (k ++ t) (inside :: cs) rest

theorem GapTo.blanks {w : Text} (hw : Within Byte.isBlank w) (h : GapTo t cs rest) : GapTo (w ++ t) cs rest := by
  induction w with
  | nil => exact h
  | cons b w ih =>
    rw [within_cons] at hw
    exact .blank hw.1 (ih hw.2)

theorem GapTo.suffix (h : GapTo t cs rest) : rest <:+ t := by
  induction h with
  | nil => exact List.suffix_rfl
  | blank _ _ ih => exact ih.trans (List.suffix_cons _ _)
  | comment _ _ ih => exact ih.trans (List.suffix_append _ _)

/-- Reading a gap goes on behind any beginning of it, with what is collected so far. -/
theorem GapTo.gap_eq (h : GapTo t cs rest) : gap t = (gap rest).map fun p => (collected cs ++ p.1, p.2) := by
  induction h with
  | @nil t => cases gap t <;> rfl
  | @blank b t _ _ hb _ ih =>
    have hskip : gap ([b] ++ t) = gap t := gap_blanks (by simpa using hb) t
    exact hskip.trans ih
  | @comment k inside t rest cs hk _ ih =>
    rw [gap_comment (hk.apart_blank t) (comment?_eq_some_iff.2 ⟨k, hk, rfl⟩), ih]
    cases gap rest <;> simp [Except.map, collected]

theorem gap_of_unclosed (h : UnclosedComment t) : gap t = .error ⟨.unclosedComment, t.length⟩ := by
  have hc : comment? t = .error ⟨.unclosedComment, t.length⟩ := comment?_eq_error.2 ⟨h, rfl⟩
  obtain ⟨inside, rfl, -⟩ := h
  have hap : Apart Byte.isBlank (utf8 "/*" ++ inside) := by
    rw [blockStart]
    exact apart_cons.2 (by decide)
  rw [gap, dropWhile_of_apart hap]
  split
  · next he => rw [hc] at he; cases he; rfl
  · next he => rw [hc] at he; cases he
  · next he => rw [hc] at he; cases he

/-- Every text is a gap up to a place where none goes on, or up to a comment without its end. -/
theorem exists_gapTo (t : Text) : ∃ cs rest, GapTo t cs rest ∧ (GapEnd rest ∨ UnclosedComment rest) := by
  induction hn : t.length using Nat.strongRecOn generalizing t with
  | ind n ih =>
    subst hn
    obtain ⟨w, ht, hw, hap⟩ := exists_run Byte.isBlank t
    generalize t.dropWhile Byte.isBlank = u at ht hap
    subst ht
    cases hc : comment? u with
    | error e => exact ⟨[], u, .blanks hw .nil, .inr (comment?_eq_error.1 hc).1⟩
    | ok found =>
      cases found with
      | none => exact ⟨[], u, .blanks hw .nil, .inl ⟨hap, hc⟩⟩
      | some found =>
        obtain ⟨inside, r⟩ := found
        have hlt : r.length < (w ++ u).length := by
          have hshort := comment?_length hc
          rw [List.length_append]
          omega
        obtain ⟨cs, rest, hgap, hrest⟩ := ih r.length hlt r rfl
        obtain ⟨k, hk, rfl⟩ := comment?_eq_some_iff.1 hc
        exact ⟨inside :: cs, rest, .blanks hw (.comment hk hgap), hrest⟩

/-! ## Gaps between places -/

/-- From one place of a source up to another stands a gap, and its comments have these interiors. -/
structure GapBetween (source : Text) (start stop : Nat) (cs : List Text) : Prop where
  le : start ≤ stop
  stop_le : stop ≤ source.length
  gap : GapTo (source.drop start) cs (source.drop stop)

/-- At the place the source ends, or a byte stands there that is no blank and opens no comment. -/
structure GapEndAt (source : Text) (place : Nat) : Prop where
  not_blank : ∀ b, source[place]? = some b → Byte.isBlank b = false
  not_comment : ¬BeginsComment (source.drop place)

variable {source acc : Text} {start stop place : Nat}

theorem gapEndAt_iff : GapEndAt source place ↔ GapEnd (source.drop place) := by
  unfold GapEnd Apart
  rw [comment?_eq_none, List.head?_drop]
  exact ⟨fun h => ⟨h.not_blank, h.not_comment⟩, fun h => ⟨h.1, h.2⟩⟩

theorem gapAt_of_gapTo (h : GapTo (source.drop start) cs (source.drop place)) :
    gapAt source start = (gapAt source place).map fun p => (p.1, collected cs ++ p.2) := by
  unfold gapAt fromOffset
  rw [h.gap_eq]
  cases gap (source.drop place) <;> rfl

theorem gapAt_of_end (hle : place ≤ source.length) (h : GapEndAt source place) :
    gapAt source place = .ok (place, []) := by
  unfold gapAt fromOffset
  rw [gap_of_end (gapEndAt_iff.1 h)]
  exact congrArg (fun p => Except.ok (p, [])) (offsetOf_drop hle)

theorem gapAt_of_unclosed (hle : place ≤ source.length) (h : UnclosedComment (source.drop place)) :
    gapAt source place = .error ⟨.unclosedComment, place⟩ := by
  rw [gapAt, fromOffset_eq_error hle List.length_drop (gap_of_unclosed h)]
  rfl

/-- From every place of a source a gap goes up to a place where none goes on, or up to a comment without its end. -/
theorem exists_gapBetween (hle : start ≤ source.length) : ∃ stop cs, GapBetween source start stop cs ∧
    (GapEndAt source stop ∨ UnclosedComment (source.drop stop)) := by
  obtain ⟨cs, rest, hgap, hrest⟩ := exists_gapTo (source.drop start)
  obtain ⟨g, hg⟩ := hgap.suffix
  obtain ⟨hbetween, hdrop⟩ := Between.of_drop hle hg.symm
  subst hdrop
  exact ⟨start + g.length, cs, ⟨hbetween.le, hbetween.stop_le, hgap⟩, hrest.imp_left gapEndAt_iff.2⟩

theorem GapBetween.gapAt_of_end (h : GapBetween source start stop cs) (hend : GapEndAt source stop) :
    gapAt source start = .ok (stop, collected cs) := by
  rw [gapAt_of_gapTo h.gap, Scan.gapAt_of_end h.stop_le hend]
  exact congrArg (fun acc => Except.ok (stop, acc)) (List.append_nil _)

theorem GapBetween.gapAt_of_unclosed (h : GapBetween source start stop cs)
    (hopen : UnclosedComment (source.drop stop)) : gapAt source start = .error ⟨.unclosedComment, stop⟩ := by
  rw [gapAt_of_gapTo h.gap, Scan.gapAt_of_unclosed h.stop_le hopen]
  rfl

theorem gapAt_eq_ok (hle : start ≤ source.length) : gapAt source start = .ok (stop, acc) ↔
    ∃ cs, GapBetween source start stop cs ∧ GapEndAt source stop ∧ acc = collected cs := by
  constructor
  · intro h
    obtain ⟨stop', cs, hgap, hend | hopen⟩ := exists_gapBetween hle
    · rw [hgap.gapAt_of_end hend] at h
      cases h
      exact ⟨cs, hgap, hend, rfl⟩
    · rw [hgap.gapAt_of_unclosed hopen] at h
      cases h
  · rintro ⟨cs, hgap, hend, rfl⟩
    exact hgap.gapAt_of_end hend

theorem gapAt_eq_error (hle : start ≤ source.length) {e : ScanError} : gapAt source start = .error e ↔
    ∃ stop cs, GapBetween source start stop cs ∧ UnclosedComment (source.drop stop) ∧
      e = ⟨.unclosedComment, stop⟩ := by
  constructor
  · intro h
    obtain ⟨stop, cs, hgap, hend | hopen⟩ := exists_gapBetween hle
    · rw [hgap.gapAt_of_end hend] at h
      cases h
    · rw [hgap.gapAt_of_unclosed hopen] at h
      cases h
      exact ⟨stop, cs, hgap, hopen, rfl⟩
  · rintro ⟨stop, cs, hgap, hopen, rfl⟩
    exact hgap.gapAt_of_unclosed hopen

/-- No gap goes further than the one that is read. -/
theorem GapBetween.le_of_gapAt (h : GapBetween source start place cs) (hread : gapAt source start = .ok (stop, acc)) :
    place ≤ stop := by
  rw [gapAt_of_gapTo h.gap] at hread
  cases hrest : gapAt source place with
  | error e =>
    rw [hrest] at hread
    cases hread
  | ok found =>
    rw [hrest] at hread
    cases hread
    obtain ⟨_, hgap, -, -⟩ := (gapAt_eq_ok h.stop_le).1 hrest
    exact hgap.le

/-- What reading the gap at a place says: which gaps it reads, where it fails, and that it stops at the end of the
longest gap, where it has nothing more to read. -/
structure ReadsLongestGap (source : Text) (start : Nat) : Prop where
  ok : ∀ stop acc, gapAt source start = .ok (stop, acc) ↔
    ∃ cs, GapBetween source start stop cs ∧ GapEndAt source stop ∧ acc = collected cs
  error : ∀ e, gapAt source start = .error e ↔
    ∃ stop cs, GapBetween source start stop cs ∧ UnclosedComment (source.drop stop) ∧
      e = ⟨.unclosedComment, stop⟩
  longest : ∀ stop acc, gapAt source start = .ok (stop, acc) →
    ∀ place cs, GapBetween source start place cs → place ≤ stop
  again : ∀ stop acc, gapAt source start = .ok (stop, acc) → gapAt source stop = .ok (stop, [])

/-- **Reading a gap reads exactly the longest one.** -/
theorem gapAt_longest {source : Text} {start : Nat} (hle : start ≤ source.length) : ReadsLongestGap source start where
  ok _ _ := gapAt_eq_ok hle
  error _ := gapAt_eq_error hle
  longest _ _ hread _ _ hgap := hgap.le_of_gapAt hread
  again stop acc hread := by
    obtain ⟨cs, hgap, hend, -⟩ := (gapAt_eq_ok hle).1 hread
    exact gapAt_of_end hgap.stop_le hend

/-- A star right behind the opening does not close a comment, and neither does a star in a line comment open one. -/
theorem gapAt_longest_of_stars :
    (∃ cs, GapBetween (utf8 "/*/*/ //*\r\n;") 0 11 cs ∧ GapEndAt (utf8 "/*/*/ //*\r\n;") 11 ∧
      utf8 "/\n*\n" = collected cs) ∧
    ∃ stop cs, GapBetween (utf8 " /**/ /*/") 1 stop cs ∧ UnclosedComment ((utf8 " /**/ /*/").drop stop) ∧
      ScanError.mk .unclosedComment 6 = ⟨.unclosedComment, stop⟩ := by
  have hread : ReadsLongestGap (utf8 "/*/*/ //*\r\n;") 0 := gapAt_longest (by decide)
  have hfail : ReadsLongestGap (utf8 " /**/ /*/") 1 := gapAt_longest (by decide)
  exact ⟨(hread.ok 11 _).1 (by decide +kernel), (hfail.error _).1 (by decide +kernel)⟩

/-! ## The line comment behind an element -/

/-- Behind spaces and tabs at the place a line comment begins. -/
def LineCommentAhead (source : Text) (place : Nat) : Prop :=
  ∃ w, Within Byte.isGap w ∧ w ++ utf8 "//" <+: source.drop place

/-- From both places the gap is read to the same end, or fails in the same way. What is collected from the first place
is this text and what is collected from the second one. -/
def SameGap (source : Text) (start place : Nat) (front : Text) : Prop :=
  (∃ e, gapAt source start = .error e ∧ gapAt source place = .error e) ∨
    ∃ stop acc, gapAt source start = .ok (stop, front ++ acc) ∧ gapAt source place = .ok (stop, acc)

theorem sameGap_of_gapTo (h : GapTo (source.drop start) cs (source.drop place)) :
    SameGap source start place (collected cs) := by
  unfold SameGap
  rw [gapAt_of_gapTo h]
  cases gapAt source place with
  | error e => exact .inl ⟨e, rfl, rfl⟩
  | ok found => exact .inr ⟨found.1, found.2, rfl, rfl⟩

theorem drop_lineCommentAt (source : Text) (start : Nat) :
    source.drop (lineCommentAt source start).1 = (lineComment (source.drop start)).2 :=
  drop_offsetOf ((lineComment_suffix _).trans (List.drop_suffix start source))

/-- The line comment behind an element is a gap, and so are the blanks there if there is no comment. -/
theorem gapTo_lineComment (t : Text) : GapTo t (lineComment t).1.toList (lineComment t).2 := by
  rcases h : lineComment t with ⟨c, rest⟩
  cases c with
  | none =>
    obtain ⟨w, rfl, hw, -, -⟩ := lineComment_eq_none h
    exact .blanks (hw.mono Byte.isBlank_of_isGap) .nil
  | some c =>
    obtain ⟨w, rfl, hw, hc, hr⟩ := lineComment_eq_some h
    rw [List.append_assoc, List.append_assoc, ← List.append_assoc (utf8 "//")]
    exact .blanks (hw.mono Byte.isBlank_of_isGap) (.comment (.line hc hr) .nil)

theorem lineCommentAhead_iff : LineCommentAhead source start ↔ ∃ c, (lineCommentAt source start).2 = some c := by
  unfold LineCommentAhead lineCommentAt
  dsimp only
  generalize source.drop start = t
  constructor
  · rintro ⟨w, hw, line, rfl⟩
    obtain ⟨c, hline, hc, hr⟩ := exists_run isInLine line
    refine ⟨c, ?_⟩
    rw [hline, ← List.append_assoc, lineComment_some hw hc hr]
  · rintro ⟨c, hc⟩
    obtain ⟨w, ht, hw, -, -⟩ := lineComment_eq_some (Prod.ext hc rfl)
    refine ⟨w, hw, c ++ (lineComment t).2, ?_⟩
    rw [← List.append_assoc]
    exact ht.symm

/-- **The line comment behind an element is neither lost nor read twice** if the gap behind it is read next. -/
theorem lineCommentAt_loses_nothing (source : Text) (start : Nat) :
    (LineCommentAhead source start → ∃ c, (lineCommentAt source start).2 = some c ∧
      SameGap source start (lineCommentAt source start).1 (c ++ newline)) ∧
    (¬LineCommentAhead source start → (lineCommentAt source start).2 = none ∧
      SameGap source start (lineCommentAt source start).1 []) := by
  have hgap : GapTo (source.drop start) (lineCommentAt source start).2.toList
      (source.drop (lineCommentAt source start).1) := by
    rw [drop_lineCommentAt]
    exact gapTo_lineComment _
  have hsame := sameGap_of_gapTo hgap
  rw [lineCommentAhead_iff]
  constructor
  · rintro ⟨c, hc⟩
    rw [hc] at hsame
    exact ⟨c, hc, by simpa [collected] using hsame⟩
  · intro hno
    have hnone := Option.eq_none_iff_forall_ne_some.2 (not_exists.1 hno)
    rw [hnone] at hsame
    exact ⟨hnone, hsame⟩

/-- An empty line comment at the end of its line, and a block comment, which is left to the gap. -/
theorem lineCommentAt_of_statements :
    (∃ c, (lineCommentAt (utf8 "; //\r\n/*a*/\n") 1).2 = some c ∧
      SameGap (utf8 "; //\r\n/*a*/\n") 1 (lineCommentAt (utf8 "; //\r\n/*a*/\n") 1).1 (c ++ newline)) ∧
    (lineCommentAt (utf8 "; /*a*/ //b") 1).2 = none ∧
      SameGap (utf8 "; /*a*/ //b") 1 (lineCommentAt (utf8 "; /*a*/ //b") 1).1 [] := by
  obtain ⟨hahead, -⟩ := lineCommentAt_loses_nothing (utf8 "; //\r\n/*a*/\n") 1
  obtain ⟨-, hnot⟩ := lineCommentAt_loses_nothing (utf8 "; /*a*/ //b") 1
  refine ⟨hahead ⟨[Byte.space], by decide, utf8 "\r\n/*a*/\n", by decide⟩, hnot ?_⟩
  rw [lineCommentAhead_iff]
  rintro ⟨c, hc⟩
  have hnone : (lineCommentAt (utf8 "; /*a*/ //b") 1).2 = none := by decide +kernel
  rw [hnone] at hc
  cases hc

end Scan

end PhpClass
