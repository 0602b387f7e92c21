import PhpClass.Grammar.Header
import PhpClass.Proofs.Trim

/-!
# Gaps as a grammar

What stands between two pieces of code is a sequence of blanks, block comments and line comments
(`Scan.IsGap`). Reading a gap reads exactly such a sequence (`gap_eq_ok`, `gap_append`) and keeps the
interiors of its comments. The line comment behind an element is read apart from the gap behind it.
-/

namespace PhpClass

open Text

namespace Text

/-! ## The end of a block comment -/

theorem holds_cons (needle : Text) (b : UInt8) (t : Text) :
    holds needle (b :: t) = (startsWith needle (b :: t) || holds needle t) := by
  unfold holds startsWith
  rw [beyond?]
  split <;> simp_all

theorem beyond?_two {a b : UInt8} (hab : a ≠ b) {s : Text} (hs : holds [a, b] s = false)
    (rest : Text) : beyond? [a, b] (s ++ a :: b :: rest) = some rest := by
  induction s with
  | nil => simp [beyond?, after?]
  | cons x s ih =>
    rw [holds_cons, Bool.or_eq_false_iff] at hs
    have hnone : after? [a, b] (x :: (s ++ a :: b :: rest)) = none := by
      cases s with
      | nil => simp [after?, hab.symm]
      | cons y s => simpa [startsWith, after?] using hs.1
    rw [List.cons_append, beyond?, hnone]
    exact ih hs.2

theorem cut?_two {a b : UInt8} (hab : a ≠ b) {s : Text} (hs : holds [a, b] s = false) (rest : Text) :
    cut? [a, b] (s ++ a :: b :: rest) = some (s, rest) := by
  unfold cut?
  rw [beyond?_two hab hs, Option.map_some]
  simp [upTo]

theorem beyond?_two_eq_some {a b : UInt8} {t rest : Text} (h : beyond? [a, b] t = some rest) :
    ∃ s, t = s ++ a :: b :: rest ∧ holds [a, b] s = false := by
  induction t with
  | nil => simp [beyond?, after?] at h
  | cons x t ih =>
    rw [beyond?] at h
    split at h
    · next r hr =>
      cases h
      have ht := after?_eq_some.1 hr
      exact ⟨[], by simpa using ht, by simp [holds, beyond?, after?]⟩
    · next hn =>
      obtain ⟨s, rfl, hs⟩ := ih h
      refine ⟨x :: s, rfl, ?_⟩
      rw [holds_cons, hs, Bool.or_false]
      cases s with
      | nil => simp [startsWith, after?]
      | cons y s => simpa [startsWith, after?] using hn

theorem cut?_two_eq_some {a b : UInt8} {t s rest : Text} (h : cut? [a, b] t = some (s, rest)) :
    t = s ++ a :: b :: rest ∧ holds [a, b] s = false := by
  unfold cut? at h
  obtain ⟨r, hr, he⟩ := Option.map_eq_some_iff.1 h
  cases he
  obtain ⟨s, rfl, hs⟩ := beyond?_two_eq_some hr
  simp [upTo, hs]

end Text

namespace Scan

/-- A byte inside a line. -/
def isInLine (b : UInt8) : Bool := !Byte.isLineEnd b

theorem blockStart : utf8 "/*" = [ascii '/', ascii '*'] := by decide

theorem blockEnd : utf8 "*/" = [ascii '*', ascii '/'] := by decide

theorem lineStart : utf8 "//" = [ascii '/', ascii '/'] := by decide

/-! ## Comments -/

theorem comment?_block {inside : Text} (h : holds (utf8 "*/") inside = false) (rest : Text) :
    comment? (utf8 "/*" ++ inside ++ utf8 "*/" ++ rest) = .ok (some (inside, rest)) := by
  unfold comment?
  rw [List.append_assoc, List.append_assoc, after?_append]
  dsimp only
  rw [blockEnd] at h ⊢
  rw [List.cons_append, List.singleton_append, cut?_two (by decide) h]

theorem comment?_line {inside rest : Text} (hi : Within isInLine inside) (hr : Apart isInLine rest) :
    comment? (utf8 "//" ++ inside ++ rest) = .ok (some (inside, rest)) := by
  have hblock : after? (utf8 "/*") (utf8 "//" ++ (inside ++ rest)) = none := by
    rw [blockStart, lineStart]
    have hne : ascii '*' ≠ ascii '/' := by decide
    simp [after?, hne]
  unfold comment?
  rw [List.append_assoc, hblock]
  dsimp only
  rw [after?_append]
  dsimp only
  exact congrArg (fun p => Except.ok (some p)) (splitWhile_append hi hr)

theorem comment?_eq_some {t inside rest : Text} (h : comment? t = .ok (some (inside, rest))) :
    (t = utf8 "/*" ++ inside ++ utf8 "*/" ++ rest ∧ holds (utf8 "*/") inside = false) ∨
    (t = utf8 "//" ++ inside ++ rest ∧ Within isInLine inside ∧ Apart isInLine rest) := by
  unfold comment? at h
  split at h
  · next body hb =>
    split at h
    · next found hf =>
      cases h
      left
      rw [blockEnd] at hf ⊢
      obtain ⟨he, hh⟩ := cut?_two_eq_some hf
      refine ⟨?_, hh⟩
      rw [after?_eq_some.1 hb, he]
      simp
    · cases h
  · split at h
    · next line hl =>
      right
      have hs : splitWhile isInLine line = (inside, rest) :=
        Option.some.inj (Except.ok.inj h)
      obtain ⟨rfl, hi, hr⟩ := splitWhile_eq hs
      exact ⟨by rw [after?_eq_some.1 hl, List.append_assoc], hi, hr⟩
    · cases h

/-- Whether a text begins a comment is seen at its first two bytes. -/
theorem comment?_eq_none_iff {t : Text} :
    comment? t = .ok none ↔ startsWith (utf8 "/*") t = false ∧ startsWith (utf8 "//") t = false := by
  unfold comment? startsWith
  split
  · next h => split <;> simp [h]
  · split <;> simp [*]

theorem comment?_eq_none_of_ne {b : UInt8} (hb : b ≠ ascii '/') (t : Text) :
    comment? (b :: t) = .ok none := by
  rw [comment?_eq_none_iff, blockStart, lineStart]
  simp [startsWith, after?, hb.symm]

/-! ## Gaps -/

/-- A sequence of blanks and complete comments, with the interiors of the comments. A line comment is
complete in front of the end of its line. -/
inductive IsGap : Text → List Text → Prop where
  | nil : IsGap [] []
  | blank {b : UInt8} {g : Text} {cs : List Text} (hb : Byte.isBlank b = true) (hg : IsGap g cs) :
      IsGap (b :: g) cs
  | block {inside g : Text} {cs : List Text} (hi : holds (utf8 "*/") inside = false)
      (hg : IsGap g cs) : IsGap (utf8 "/*" ++ inside ++ utf8 "*/" ++ g) (inside :: cs)
  | line {inside g : Text} {e : UInt8} {cs : List Text} (hi : Within isInLine inside)
      (he : Byte.isLineEnd e = true) (hg : IsGap (e :: g) cs) :
      IsGap (utf8 "//" ++ inside ++ e :: g) (inside :: cs)

/-- What is collected from comments: their interiors, a line break behind each. -/
def collected (cs : List Text) : Text := cs.flatMap (· ++ newline)

/-- Neither a blank nor a comment stands at the front of the text. -/
def GapEnd (t : Text) : Prop := Apart Byte.isBlank t ∧ comment? t = .ok none

theorem gapEnd_cons {b : UInt8} {t : Text} (hb : Byte.isBlank b = false) (hs : b ≠ ascii '/') :
    GapEnd (b :: t) := ⟨apart_cons.2 hb, comment?_eq_none_of_ne hs t⟩

theorem gapEnd_nil : GapEnd [] := ⟨apart_nil _, by rw [comment?_eq_none_iff]; decide⟩

/-- Behind a byte that opens no comment the text does not matter to the end of a gap. -/
theorem GapEnd.stop {s rest : Text} {c : UInt8} (hc : c ≠ ascii '/') (h : GapEnd (s ++ c :: rest)) (more : Text) :
    GapEnd (s ++ c :: more) := by
  obtain ⟨hblank, hnone⟩ := h
  cases s with
  | nil => exact gapEnd_cons (apart_cons.1 hblank) hc
  | cons b s =>
    refine ⟨apart_cons.2 (apart_cons.1 hblank), ?_⟩
    rw [comment?_eq_none_iff, blockStart, lineStart] at hnone ⊢
    cases s <;> simpa [startsWith, after?] using hnone

theorem IsGap.append {g h : Text} {cs ds : List Text} (hg : IsGap g cs) (hh : IsGap h ds) :
    IsGap (g ++ h) (cs ++ ds) := by
  induction hg with
  | nil => exact hh
  | blank hb _ ih => exact .blank hb ih
  | block hi _ ih =>
    rw [List.append_assoc]
    exact .block hi ih
  | line hi he _ ih =>
    rw [List.append_assoc, List.cons_append]
    exact .line hi he ih

theorem isGap_blanks {w : Text} (hw : Within Byte.isBlank w) : IsGap w [] := by
  induction w with
  | nil => exact .nil
  | cons b w ih => exact .blank (hw b List.mem_cons_self) (ih fun x hx => hw x (List.mem_cons_of_mem _ hx))

/-- A sequence of blanks and complete comments, whatever they say. -/
def IsGapText (g : Text) : Prop := ∃ cs, IsGap g cs

theorem isGapText_nil : IsGapText [] := ⟨[], .nil⟩

theorem isGapText_blanks {w : Text} (hw : Within Byte.isBlank w) : IsGapText w := ⟨[], isGap_blanks hw⟩

/-- A gap begins with a blank or a slash. -/
theorem IsGapText.head {g : Text} (h : IsGapText g) (hne : g ≠ []) :
    ∃ b t, g = b :: t ∧ (Byte.isBlank b = true ∨ b = ascii '/') := by
  obtain ⟨cs, h⟩ := h
  cases h with
  | nil => exact absurd rfl hne
  | blank hb _ => exact ⟨_, _, rfl, .inl hb⟩
  | block _ _ =>
    rw [blockStart]
    exact ⟨_, _, rfl, .inr rfl⟩
  | line _ _ _ =>
    rw [lineStart]
    exact ⟨_, _, rfl, .inr rfl⟩

/-- A gap is blanks and then nothing or a comment. -/
theorem exists_blanks_gap {g : Text} {cs : List Text} (hg : IsGap g cs) :
    ∃ w g', g = w ++ g' ∧ Within Byte.isBlank w ∧ IsGap g' cs ∧ (g' = [] ∨ ∃ t, g' = ascii '/' :: t) := by
  induction hg with
  | nil => exact ⟨[], [], rfl, within_nil _, .nil, .inl rfl⟩
  | @blank b _ _ hb _ ih =>
    obtain ⟨w, g', rfl, hw, hg', hhead⟩ := ih
    exact ⟨b :: w, g', rfl, within_cons.2 ⟨hb, hw⟩, hg', hhead⟩
  | @block inside g _ hi hg _ =>
    refine ⟨[], utf8 "/*" ++ inside ++ utf8 "*/" ++ g, rfl, within_nil _, .block hi hg, .inr ?_⟩
    rw [blockStart]
    exact ⟨_, rfl⟩
  | @line inside g e _ hi he hg _ =>
    refine ⟨[], utf8 "//" ++ inside ++ e :: g, rfl, within_nil _, .line hi he hg, .inr ?_⟩
    rw [lineStart]
    exact ⟨_, rfl⟩

theorem gap_of_end {t : Text} (h : GapEnd t) : gap t = .ok ([], t) := by
  rw [gap, dropWhile_of_apart h.1]
  split
  · next he => rw [h.2] at he; cases he
  · rfl
  · next he => rw [h.2] at he; cases he

theorem gap_blanks {w : Text} (hw : Within Byte.isBlank w) (t : Text) : gap (w ++ t) = gap t := by
  rw [gap, gap.eq_def t, List.dropWhile_append_of_pos hw]

/-- Reading a gap that begins with a comment goes on behind the comment. -/
theorem gap_comment {t inside rest : Text} (ht : Apart Byte.isBlank t)
    (hc : comment? t = .ok (some (inside, rest))) :
    gap t = (gap rest).map fun p => (inside ++ newline ++ p.1, p.2) := by
  rw [gap, dropWhile_of_apart ht]
  split
  · next he => rw [hc] at he; cases he
  · next he => rw [hc] at he; cases he
  · next he =>
    rw [hc] at he
    cases he
    cases gap rest <;> rfl

theorem gap_of_comment {t inside rest comments last : Text} (ht : Apart Byte.isBlank t)
    (hc : comment? t = .ok (some (inside, rest))) (hg : gap rest = .ok (comments, last)) :
    gap t = .ok (inside ++ newline ++ comments, last) := by
  rw [gap_comment ht hc, hg]
  rfl

theorem gap_append {g rest : Text} {cs : List Text} (hg : IsGap g cs) (hr : GapEnd rest) :
    gap (g ++ rest) = .ok (collected cs, rest) := by
  induction hg with
  | nil => exact gap_of_end hr
  | @blank b g cs hb _ ih =>
    rw [List.cons_append, ← ih]
    exact gap_blanks (w := [b]) (by simpa using hb) (g ++ rest)
  | @block inside g cs hi _ ih =>
    rw [List.append_assoc]
    refine gap_of_comment ?_ (comment?_block hi (g ++ rest)) ih
    rw [blockStart]
    simp only [List.cons_append, apart_cons]
    decide
  | @line inside g e cs hi he _ ih =>
    rw [List.append_assoc]
    refine gap_of_comment ?_ (comment?_line hi ?_) ih
    · rw [lineStart]
      simp only [List.cons_append, apart_cons]
      decide
    · simp [isInLine, he]

/-- Reading a gap reads a sequence of blanks and comments and stops where none stands. -/
theorem gap_eq_ok {t acc rest : Text} (h : gap t = .ok (acc, rest)) :
    GapEnd rest ∧ (rest ≠ [] → ∃ g cs, t = g ++ rest ∧ IsGap g cs ∧ acc = collected cs) := by
  fun_induction gap t generalizing acc rest with
  | case1 t e he => cases h
  | case2 t hn =>
    cases h
    refine ⟨⟨apart_dropWhile _ t, hn⟩, fun _ => ?_⟩
    obtain ⟨w, ht, hw, -⟩ := exists_run Byte.isBlank t
    exact ⟨w, [], ht, isGap_blanks hw, rfl⟩
  | case3 t inside next hc e he ih => cases h
  | case4 t inside next hc more last hg ih =>
    cases h
    obtain ⟨hend, hgap⟩ := ih hg
    refine ⟨hend, fun hne => ?_⟩
    obtain ⟨g, cs, rfl, hig, rfl⟩ := hgap hne
    obtain ⟨w, ht, hw, -⟩ := exists_run Byte.isBlank t
    rcases comment?_eq_some hc with ⟨he, hi⟩ | ⟨he, hi, hr⟩
    · refine ⟨w ++ (utf8 "/*" ++ inside ++ utf8 "*/" ++ g), inside :: cs, ?_, ?_, ?_⟩
      · rw [ht, he]
        simp only [List.append_assoc]
      · exact (isGap_blanks hw).append (.block hi hig)
      · simp [collected]
    · -- A line comment ends where a line ends, so this end belongs to the gap behind it.
      cases g with
      | nil =>
        cases last with
        | nil => exact absurd rfl hne
        | cons b last =>
          have hb : Byte.isLineEnd b = true := by simpa [isInLine] using hr
          have := hend.1
          rw [apart_cons, Byte.isBlank_of_isLineEnd b hb] at this
          cases this
      | cons b g =>
        have hb : Byte.isLineEnd b = true := by simpa [isInLine] using hr
        refine ⟨w ++ (utf8 "//" ++ inside ++ b :: g), inside :: cs, ?_, ?_, ?_⟩
        · rw [ht, he]
          simp only [List.append_assoc]
        · exact (isGap_blanks hw).append (.line hi hb hig)
        · simp [collected]

/-! ## What is kept -/

/-- The comment that is kept of a text, none if nothing of it is visible. -/
def kept (t : Text) : Option Text := if isSpace t then none else some t

theorem commentText?_newline (t : Text) : commentText? (t ++ newline) = kept t := by
  unfold commentText? kept newline
  simp

theorem collected_eq {cs : List Text} (h : cs ≠ []) :
    collected cs = join newline cs ++ newline := by
  induction cs with
  | nil => exact absurd rfl h
  | cons c cs ih =>
    cases cs with
    | nil => simp [collected, join]
    | cons d cs =>
      have := ih (by simp)
      simp only [collected, List.flatMap_cons, join] at this ⊢
      rw [this, List.intercalate_cons_cons]
      simp only [List.append_assoc]

/-- Of the comments of a gap their interiors are kept, joined by line breaks. -/
theorem commentText?_collected (cs : List Text) :
    commentText? (collected cs) = kept (join newline cs) := by
  by_cases h : cs = []
  · subst h
    rfl
  · rw [collected_eq h, commentText?_newline]

theorem kept_eq_some {t c : Text} : kept t = some c ↔ t = c ∧ isSpace c = false := by
  unfold kept
  split
  · next h => simp only [reduceCtorEq, false_iff]; rintro ⟨rfl, hc⟩; rw [h] at hc; cases hc
  · next h => simp only [Option.some.injEq]; constructor
              · rintro rfl; exact ⟨rfl, by simpa using h⟩
              · exact And.left

/-- A comment of which something is visible is kept. -/
theorem bind_kept_eq_self {c : Option Text} (h : ∀ t ∈ c, isSpace t = false) : c.bind kept = c := by
  cases c with
  | none => rfl
  | some t => exact kept_eq_some.2 ⟨rfl, h t rfl⟩

theorem commentText?_isSpace {acc c : Text} (h : commentText? acc = some c) : isSpace c = false := by
  unfold commentText? at h
  simp only [Option.ite_none_left_eq_some, Option.some.injEq] at h
  obtain ⟨hs, rfl⟩ := h
  simpa using hs

/-! ## Line comments behind an element -/

theorem lineComment_some {sp c rest : Text} (hs : Within Byte.isGap sp) (hc : Within isInLine c)
    (hr : Apart isInLine rest) : lineComment (sp ++ utf8 "//" ++ c ++ rest) = (some c, rest) := by
  have hap : Apart Byte.isGap (utf8 "//" ++ (c ++ rest)) := by
    rw [lineStart]
    simp only [List.cons_append, apart_cons]
    decide
  unfold lineComment
  dsimp only
  rw [List.append_assoc, List.append_assoc, dropWhile_append hs hap, after?_append]
  dsimp only
  rw [show splitWhile (fun b => !Byte.isLineEnd b) (c ++ rest) = (c, rest) from
    splitWhile_append hc hr]

theorem lineComment_none {sp rest : Text} (hs : Within Byte.isGap sp) (hr : Apart Byte.isGap rest)
    (hn : startsWith (utf8 "//") rest = false) : lineComment (sp ++ rest) = (none, rest) := by
  unfold lineComment
  dsimp only
  rw [dropWhile_append hs hr]
  unfold startsWith at hn
  split
  · next h => rw [h] at hn; cases hn
  · rfl

theorem lineComment_eq_some {t c rest : Text} (h : lineComment t = (some c, rest)) :
    ∃ sp, t = sp ++ utf8 "//" ++ c ++ rest ∧ Within Byte.isGap sp ∧ Within isInLine c ∧
      Apart isInLine rest := by
  obtain ⟨sp, ht, hs, -⟩ := exists_run Byte.isGap t
  unfold lineComment at h
  dsimp only at h
  split at h
  · next line hl =>
    rw [after?_eq_some.1 hl] at ht
    have hsplit : splitWhile isInLine line = (c, rest) := by
      simp only [splitWhile, Prod.mk.injEq, Option.some.injEq] at h
      exact Prod.ext h.1 h.2
    obtain ⟨rfl, hc, hr⟩ := splitWhile_eq hsplit
    exact ⟨sp, by rw [ht]; simp only [List.append_assoc], hs, hc, hr⟩
  · cases h

theorem lineComment_eq_none {t rest : Text} (h : lineComment t = (none, rest)) :
    ∃ sp, t = sp ++ rest ∧ Within Byte.isGap sp ∧ Apart Byte.isGap rest ∧
      startsWith (utf8 "//") rest = false := by
  obtain ⟨sp, ht, hs, hap⟩ := exists_run Byte.isGap t
  unfold lineComment at h
  dsimp only at h
  split at h
  · cases h
  · next hn =>
    cases h
    exact ⟨sp, ht, hs, hap, by simp [startsWith, hn]⟩

/-- Of the line comment behind an element what is visible is kept. -/
theorem trailing_eq (t : Text) :
    trailing t = ((lineComment t).1.bind visible?, (lineComment t).2) := rfl

end Scan

namespace Grammar

theorem comment_eq_ok {t rest : Text} {c : Option Text} :
    comment t = .ok (c, rest) ↔ ∃ acc, Scan.gap t = .ok (acc, rest) ∧ c = Scan.commentText? acc := by
  constructor
  · intro h
    obtain ⟨⟨acc, r⟩, hg, h⟩ := bind_eq_ok.1 h
    cases h
    exact ⟨acc, Read.ofScan_eq_ok.1 hg, rfl⟩
  · rintro ⟨acc, hg, rfl⟩
    exact bind_eq_ok.2 ⟨(acc, rest), Read.ofScan_eq_ok.2 hg, rfl⟩

/-- What is read as a comment stands in a gap in front of the rest. -/
theorem exists_gap {t rest : Text} {c : Option Text} (h : comment t = .ok (c, rest)) (hne : rest ≠ []) :
    Scan.GapEnd rest ∧
      ∃ g cs, t = g ++ rest ∧ Scan.IsGap g cs ∧ c = Scan.kept (join newline cs) := by
  obtain ⟨acc, hg, rfl⟩ := comment_eq_ok.1 h
  obtain ⟨hend, hgap⟩ := Scan.gap_eq_ok hg
  obtain ⟨g, cs, rfl, hig, rfl⟩ := hgap hne
  exact ⟨hend, g, cs, rfl, hig, Scan.commentText?_collected cs⟩

theorem comment_append {g rest : Text} {cs : List Text} (hg : Scan.IsGap g cs)
    (hr : Scan.GapEnd rest) :
    comment (g ++ rest) = .ok (Scan.kept (join newline cs), rest) :=
  comment_eq_ok.2 ⟨_, Scan.gap_append hg hr, (Scan.commentText?_collected cs).symm⟩

end Grammar

end PhpClass
