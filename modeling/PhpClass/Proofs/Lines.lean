import Mathlib.Data.List.Flatten
import PhpClass.Proofs.Comment

/-!
# Comments line by line

The lines of a text are its pieces between line feeds, without a carriage return at their ends and without
an empty last piece (`exists_lines`). So what stands on one line of a text stands in one of its lines
(`exists_line_of_isInfix`), and white space has lines of white space (`isSpace_of_mem_lines`).

A comment that would end a block comment too early is written as one line comment per line. What is read
back are its lines joined by line feeds, unless a line goes on behind a carriage return, where a line comment
ends, or the last line is empty, where no line is left. `Comment.gap_leading_iff` says that these are the only
comments that are written in a different way the second time (`Comment.Steady`).
-/

namespace PhpClass

open Text Scan

namespace Text

/-! ## Stretches of a text -/

theorem holds_iff {needle t : Text} : holds needle t = true ↔ needle <:+: t := by
  constructor
  · intro h
    obtain ⟨rest, hr⟩ := Option.isSome_iff_exists.1 h
    exact (List.prefix_append needle rest).isInfix.trans (beyond?_suffix hr).isInfix
  · rintro ⟨s, u, rfl⟩
    induction s with
    | nil =>
      unfold holds
      rw [List.nil_append, beyond?_append]
      rfl
    | cons b s ih =>
      rw [List.cons_append, List.cons_append, holds_cons, ih, Bool.or_true]

/-- A stretch without the byte stands on one side of it. -/
theorem isInfix_or_isInfix {x : UInt8} {w s t : Text} (hw : x ∉ w) (h : w <:+: s ++ x :: t) :
    w <:+: s ∨ w <:+: t := by
  rcases List.infix_append_iff.1 h with h | h | ⟨u, v, rfl, hu, hv⟩
  · exact .inl h
  · rcases List.infix_cons_iff.1 h with hv | h
    · rcases List.prefix_cons_iff.1 hv with rfl | ⟨v, rfl, -⟩
      · exact .inl List.nil_infix
      · simp at hw
    · exact .inr h
  · rcases List.prefix_cons_iff.1 hv with rfl | ⟨v, rfl, -⟩
    · exact .inl (by simpa using hu.isInfix)
    · simp at hw

theorem join_singleton (separator t : Text) : join separator [t] = t := List.intercalate_singleton

theorem join_newline (t u : Text) (ts : List Text) :
    join newline (t :: u :: ts) = t ++ Byte.lineFeed :: join newline (u :: ts) := by
  rw [join_cons_cons, List.append_assoc]
  rfl

theorem exists_isInfix_of_join {w : Text} {cs : List Text} (hw : Byte.lineFeed ∉ w) (hne : w ≠ [])
    (h : w <:+: join newline cs) : ∃ c ∈ cs, w <:+: c := by
  induction cs with
  | nil => exact absurd (List.infix_nil.1 h) hne
  | cons c cs ih =>
    cases cs with
    | nil =>
      rw [join_singleton] at h
      exact ⟨c, List.mem_cons_self, h⟩
    | cons d cs =>
      rw [join_newline] at h
      rcases isInfix_or_isInfix hw h with h | h
      · exact ⟨c, List.mem_cons_self, h⟩
      · obtain ⟨e, he, h⟩ := ih h
        exact ⟨e, List.mem_cons_of_mem _ he, h⟩

theorem isInfix_join_of_mem {c : Text} {cs : List Text} (h : c ∈ cs) : c <:+: join newline cs := by
  induction cs with
  | nil => cases h
  | cons d cs ih =>
    cases cs with
    | nil =>
      have hd : join newline [d] = c := by rw [join_singleton, List.mem_singleton.1 h]
      exact hd ▸ List.infix_rfl
    | cons e cs =>
      rw [join_cons_cons]
      rcases List.mem_cons.1 h with rfl | h
      · rw [List.append_assoc]
        exact (List.prefix_append _ _).isInfix
      · exact (ih h).trans (List.suffix_append _ _).isInfix

/-! ## Lines -/

theorem exists_lines (t : Text) : ∃ ps p, pieces t = ps ++ [p] ∧
    lines t = ps.map dropReturn ++ if p = [] then [] else [p] := by
  have hne : pieces t ≠ [] := List.splitOn_ne_nil _ t
  refine ⟨(pieces t).dropLast, (pieces t).getLast hne, (List.dropLast_concat_getLast hne).symm, ?_⟩
  unfold lines
  dsimp only
  rw [List.getLastD_eq_getLast?, List.getLast?_eq_some_getLast hne]
  simp

theorem dropReturn_eq_or (t : Text) : dropReturn t = t ∨ t = dropReturn t ++ [Byte.carriageReturn] := by
  unfold dropReturn
  split
  · next h =>
    right
    obtain ⟨u, rfl⟩ := List.getLast?_eq_some_iff.1 h
    simp
  · exact .inl rfl

/-- A line is a piece or what is left of one without a carriage return. -/
theorem mem_lines {t line : Text} (h : line ∈ lines t) :
    ∃ p ∈ pieces t, line = p ∨ p = line ++ [Byte.carriageReturn] := by
  obtain ⟨ps, p, hp, hl⟩ := exists_lines t
  rw [hl] at h
  rcases List.mem_append.1 h with h | h
  · obtain ⟨q, hq, rfl⟩ := List.mem_map.1 h
    refine ⟨q, hp ▸ List.mem_append_left _ hq, ?_⟩
    exact dropReturn_eq_or q
  · refine ⟨p, hp ▸ List.mem_append_right _ List.mem_cons_self, .inl ?_⟩
    split at h
    · cases h
    · exact List.mem_singleton.1 h

theorem lineFeed_of_mem_lines {t line : Text} (h : line ∈ lines t) : Byte.lineFeed ∉ line := by
  obtain ⟨p, hp, he⟩ := mem_lines h
  intro hm
  have hmem : Byte.lineFeed ∈ p := by
    rcases he with rfl | rfl
    · exact hm
    · exact List.mem_append_left _ hm
  exact (mem_pieces hp hmem).1 rfl

theorem isInfix_of_mem_lines {t line : Text} (h : line ∈ lines t) : line <:+: t := by
  obtain ⟨p, hp, he⟩ := mem_lines h
  have hpiece : p <:+: t := by
    have := isInfix_join_of_mem hp
    rwa [join_pieces] at this
  rcases he with rfl | rfl
  · exact hpiece
  · exact (List.prefix_append _ _).isInfix.trans hpiece

/-- What stands on one line of a text and does not end in a carriage return stands in a line of it. -/
theorem exists_line_of_isInfix {w t : Text} (hw : Byte.lineFeed ∉ w) (hne : w ≠ [])
    (hr : w.getLast? ≠ some Byte.carriageReturn) (h : w <:+: t) : ∃ line ∈ lines t, w <:+: line := by
  rw [← join_pieces t] at h
  obtain ⟨p, hp, hwp⟩ := exists_isInfix_of_join hw hne h
  obtain ⟨ps, q, hq, hl⟩ := exists_lines t
  rw [hq] at hp
  rcases List.mem_append.1 hp with hp | hp
  · refine ⟨dropReturn p, hl ▸ List.mem_append_left _ (List.mem_map_of_mem hp), ?_⟩
    rcases dropReturn_eq_or p with he | he
    · rwa [he]
    · rw [he] at hwp
      rcases List.infix_concat_iff.1 hwp with hs | hi
      · rcases List.suffix_concat_iff.1 hs with rfl | ⟨v, rfl, -⟩
        · exact absurd rfl hne
        · exact absurd (List.getLast?_concat ..) hr
      · exact hi
  · obtain rfl := List.mem_singleton.1 hp
    have hp : p ≠ [] := by
      rintro rfl
      exact hne (List.infix_nil.1 hwp)
    exact ⟨p, by simp [hl, hp], hwp⟩

theorem dropReturn_sublist (t : Text) : (dropReturn t).Sublist t := by
  unfold dropReturn
  split
  · exact List.dropLast_sublist t
  · exact List.Sublist.refl t

theorem flatten_sublist_join (ts : List Text) : ts.flatten.Sublist (join newline ts) := by
  induction ts with
  | nil => exact List.Sublist.refl _
  | cons t ts ih =>
    cases ts with
    | nil => simp [join_singleton]
    | cons u ts =>
      rw [List.flatten_cons, join_cons_cons]
      exact (List.sublist_append_left t newline).append ih

/-- No byte stands in more lines than in the text. -/
theorem lines_flatten_sublist (t : Text) : (lines t).flatten.Sublist t := by
  obtain ⟨ps, p, hp, hl⟩ := exists_lines t
  have hlines : (ps.map dropReturn).flatten.Sublist ps.flatten := by
    have hdrop := List.Sublist.flatMap_right ps (g := id) fun p _ => dropReturn_sublist p
    rwa [List.flatMap_def, List.flatMap_id] at hdrop
  have ht := flatten_sublist_join (pieces t)
  rw [join_pieces, hp, List.flatten_append] at ht
  rw [hl, List.flatten_append]
  refine .trans (hlines.append ?_) ht
  split
  · exact List.nil_sublist _
  · exact List.Sublist.refl _

/-- Lines that are joined are the lines of the text, if none holds a carriage return and the last is not
empty. -/
theorem lines_join {ls : List Text} (hne : ls ≠ []) (hf : ∀ line ∈ ls, Byte.lineFeed ∉ line)
    (hr : ∀ line ∈ ls, Byte.carriageReturn ∉ line) :
    lines (join newline ls) = ls ↔ ls.getLast? ≠ some [] := by
  obtain ⟨ps, p, hp, hl⟩ := exists_lines (join newline ls)
  have hpieces : pieces (join newline ls) = ls := List.splitOn_intercalate Byte.lineFeed hf hne
  rw [hpieces] at hp
  subst hp
  have hmap : ps.map dropReturn = ps := by
    refine (List.map_congr_left fun q hq => ?_).trans (List.map_id' _)
    exact dropReturn_eq_self (hr q (List.mem_append_left _ hq))
  rw [hl, hmap, List.getLast?_concat]
  by_cases hp : p = [] <;> simp [hp]

/-! ## White space -/

theorem isSpace_append_blank {c : UInt8} (hc : Byte.isBlank c = true) (t w : Text) :
    isSpace (t ++ c :: w) = (isSpace t && isSpace w) := by
  have hw : trimStart (c :: w) = trimStart w := trimStart_blanks (w := [c]) (by simpa using hc) w
  unfold isSpace
  rw [trimStart_append_blank hc, hw]
  by_cases ht : trimStart t = []
  · simp [ht]
  · have hempty : (trimStart t).isEmpty = false := by simpa using ht
    rw [if_neg ht, hempty]
    simp

theorem isSpace_join_iff {ts : List Text} : isSpace (join newline ts) = true ↔ ∀ t ∈ ts, isSpace t = true := by
  induction ts with
  | nil => exact ⟨nofun, fun _ => rfl⟩
  | cons t ts ih =>
    cases ts with
    | nil => simp [join_singleton]
    | cons u ts =>
      rw [join_newline, isSpace_append_blank (by decide), Bool.and_eq_true, ih]
      simp only [List.forall_mem_cons]

theorem isSpace_of_mem_lines {t line : Text} (ht : isSpace t = true) (h : line ∈ lines t) :
    isSpace line = true := by
  obtain ⟨p, hp, he⟩ := mem_lines h
  have hpiece : isSpace p = true := by
    rw [← join_pieces t] at ht
    exact isSpace_join_iff.1 ht p hp
  rcases he with rfl | rfl
  · exact hpiece
  · rw [isSpace_append_blank (by decide), Bool.and_eq_true] at hpiece
    exact hpiece.1

end Text

namespace Scan

/-! ## What is collected from a gap -/

theorem IsGap.count_le {g : Text} {cs : List Text} (h : IsGap g cs) :
    (collected cs).count Byte.carriageReturn ≤ g.count Byte.carriageReturn := by
  have hline : ∀ inside : Text, (inside ++ newline).count Byte.carriageReturn =
      inside.count Byte.carriageReturn := by
    intro inside
    rw [List.count_append, show newline.count Byte.carriageReturn = 0 by decide, Nat.add_zero]
  induction h with
  | nil => exact Nat.le_refl 0
  | blank _ _ ih => exact Nat.le_trans ih List.count_le_count_cons
  | block _ _ ih =>
    simp only [collected, List.flatMap_cons, List.count_append, hline] at ih ⊢
    omega
  | line _ _ _ ih =>
    simp only [collected, List.flatMap_cons, List.count_append, hline] at ih ⊢
    omega

/-- A gap gives no carriage return that does not stand in it. -/
theorem gap_count_le {g acc last : Text} (hne : last ≠ []) (h : gap (g ++ last) = .ok (acc, last)) :
    acc.count Byte.carriageReturn ≤ g.count Byte.carriageReturn := by
  obtain ⟨g', cs, hg, hgap, rfl⟩ := (gap_eq_ok h).2 hne
  obtain rfl := List.append_cancel_right hg
  exact hgap.count_le

theorem count_inLine {c : Text} (hc : Within isInLine c) : c.count Byte.carriageReturn = 0 :=
  List.count_eq_zero.2 fun hm => absurd (hc _ hm) (by decide)

theorem count_commentText? {acc t : Text} (h : commentText? acc = some t) :
    t.count Byte.carriageReturn ≤ acc.count Byte.carriageReturn := by
  unfold commentText? at h
  simp only [Option.ite_none_left_eq_some, Option.some.injEq] at h
  obtain ⟨-, rfl⟩ := h
  split
  · exact (List.dropLast_sublist acc).count_le _
  · exact Nat.le_refl _

/-- What is collected from a gap that begins with a comment. -/
theorem gap_comment_eq_ok {t inside rest acc last : Text} (ht : Apart Byte.isBlank t)
    (hc : comment? t = .ok (some (inside, rest))) (h : gap t = .ok (acc, last)) :
    ∃ more, gap rest = .ok (more, last) ∧ acc = inside ++ newline ++ more := by
  rw [gap_comment ht hc] at h
  cases hg : gap rest with
  | error e => rw [hg] at h; cases h
  | ok p => rw [hg] at h; cases h; exact ⟨_, rfl, rfl⟩

/-- What is collected from a line comment that ends in front of `r` on its line. -/
theorem gap_line_eq_ok {c r t acc last : Text} (hc : Within isInLine c) (hr : Apart isInLine r)
    (h : gap (utf8 "//" ++ (c ++ r ++ Byte.lineFeed :: t)) = .ok (acc, last)) :
    ∃ more, gap (r ++ Byte.lineFeed :: t) = .ok (more, last) ∧ acc = c ++ newline ++ more := by
  have hrest : Apart isInLine (r ++ Byte.lineFeed :: t) := by
    cases r with
    | nil => exact apart_cons.2 (by decide)
    | cons e r => exact hr.append (by simp)
  have hfront : Apart Byte.isBlank (utf8 "//" ++ (c ++ r ++ Byte.lineFeed :: t)) := by
    rw [lineStart]
    exact apart_cons.2 (by decide)
  rw [List.append_assoc] at h hfront
  exact gap_comment_eq_ok hfront (comment?_line hc hrest) h

end Scan

namespace Comment

/-! ## Lines as line comments -/

/-- Lines, each written as a line comment. -/
def lineByLine (level : Nat) (ls : List Text) : Text :=
  Layout.standard.render (ls.flatMap fun line => [.indent level, .word "//", .text line, .newline])

@[simp] theorem lineByLine_nil (level : Nat) : lineByLine level [] = [] := rfl

theorem lineByLine_cons (level : Nat) (line : Text) (ls : List Text) : lineByLine level (line :: ls) =
    Layout.standard.piece (.indent level) ++ (utf8 "//" ++ (line ++ Byte.lineFeed :: lineByLine level ls)) := by
  simp [lineByLine, show Layout.standard.newline = [Byte.lineFeed] from rfl]

theorem render_leading_lines {t : Text} (h : holds (utf8 "*/") t = true) (level : Nat) :
    Layout.standard.render (leading level t) = lineByLine level t.lines := by
  unfold leading lineByLine
  rw [if_pos h]

theorem render_leading_block {t : Text} (h : holds (utf8 "*/") t = false) (level : Nat) :
    Layout.standard.render (leading level t) =
      Layout.standard.piece (.indent level) ++ (utf8 "/*" ++ (t ++ (utf8 "*/" ++ newline))) := by
  unfold leading
  rw [if_neg (by simp [h])]
  simp [show Layout.standard.newline = newline from rfl]

theorem isInfix_lineByLine_of_mem {line : Text} {ls : List Text} (h : line ∈ ls) (level : Nat) :
    line <:+: lineByLine level ls := by
  induction ls with
  | nil => cases h
  | cons l ls ih =>
    rw [lineByLine_cons]
    refine List.infix_append_of_infix_right (List.infix_append_of_infix_right ?_)
    rcases List.mem_cons.1 h with rfl | h
    · exact (List.prefix_append _ _).isInfix
    · exact List.infix_append_of_infix_right ((ih h).trans (List.suffix_cons _ _).isInfix)

/-- Lines are seen in what is written of them. -/
theorem lineByLine_injective (level : Nat) {ls ms : List Text} (hl : ∀ line ∈ ls, Byte.lineFeed ∉ line)
    (hm : ∀ line ∈ ms, Byte.lineFeed ∉ line) (h : lineByLine level ls = lineByLine level ms) : ls = ms := by
  induction ls generalizing ms with
  | nil =>
    cases ms with
    | nil => rfl
    | cons m ms => simp [lineByLine_cons, lineStart] at h
  | cons l ls ih =>
    cases ms with
    | nil => simp [lineByLine_cons, lineStart] at h
    | cons m ms =>
      rw [List.forall_mem_cons] at hl hm
      rw [lineByLine_cons, lineByLine_cons, List.append_cancel_left_eq, List.append_cancel_left_eq] at h
      have hpieces := congrArg (List.splitOn Byte.lineFeed) h
      rw [List.splitOn_append_cons_self_of_not_mem hl.1, List.splitOn_append_cons_self_of_not_mem hm.1] at hpieces
      obtain ⟨rfl, -⟩ := List.cons.inj hpieces
      rw [List.append_cancel_left_eq] at h
      rw [ih hl.2 hm.2 (List.cons.inj h).2]

theorem carriageReturn_of_indent (level : Nat) :
    Byte.carriageReturn ∉ Layout.standard.piece (.indent level) := by
  intro h
  obtain ⟨t, ht, hb⟩ := List.mem_flatten.1 h
  rw [List.eq_of_mem_replicate ht] at hb
  exact absurd hb (by decide)

theorem count_lineByLine (level : Nat) (ls : List Text) :
    (lineByLine level ls).count Byte.carriageReturn = ls.flatten.count Byte.carriageReturn := by
  induction ls with
  | nil => rfl
  | cons line ls ih =>
    have hindent := List.count_eq_zero.2 (carriageReturn_of_indent level)
    have hslashes : (utf8 "//").count Byte.carriageReturn = 0 := by decide
    have hne : (Byte.lineFeed == Byte.carriageReturn) = false := by decide
    rw [lineByLine_cons, List.flatten_cons]
    simp only [List.count_append, List.count_cons, hindent, hslashes, hne, ih]
    simp

/-- If no carriage return is lost, the lines are read as they are written, and hold none. -/
theorem gap_lineByLine {level : Nat} {ls : List Text} (hf : ∀ line ∈ ls, Byte.lineFeed ∉ line)
    {acc u : Text} (hu : u ≠ []) (h : gap (lineByLine level ls ++ u) = .ok (acc, u))
    (hcount : ls.flatten.count Byte.carriageReturn ≤ acc.count Byte.carriageReturn) :
    acc = collected ls ∧ ∀ line ∈ ls, Byte.carriageReturn ∉ line := by
  induction ls generalizing acc with
  | nil =>
    rw [lineByLine_nil, List.nil_append, gap_of_end (gap_eq_ok h).1] at h
    cases h
    exact ⟨rfl, by simp⟩
  | cons line ls ih =>
    rw [List.forall_mem_cons] at hf
    rw [lineByLine_cons, List.append_assoc,
      gap_blanks (Layout.blank_standard.piece_indent level)] at h
    -- The comment ends where the line ends or where a carriage return stands on it.
    obtain ⟨a, hline, ha, hr⟩ := exists_run isInLine line
    generalize line.dropWhile isInLine = r at hline hr
    subst hline
    obtain ⟨more, hmore, rfl⟩ := gap_line_eq_ok (t := lineByLine level ls ++ u) ha hr (by simpa using h)
    have hnewline : newline.count Byte.carriageReturn = 0 := by decide
    rw [List.count_append, List.count_append, hnewline, List.flatten_cons, List.count_append,
      List.count_append, count_inLine ha] at hcount
    cases r with
    | nil =>
      have hrest : gap (lineByLine level ls ++ u) = .ok (more, u) := by
        rw [← hmore]
        exact (gap_blanks (w := [Byte.lineFeed]) (by decide) _).symm
      obtain ⟨rfl, hall⟩ := ih hf.2 hrest (by omega)
      rw [List.append_nil]
      refine ⟨rfl, List.forall_mem_cons.2 ⟨fun hm => ?_, hall⟩⟩
      exact absurd (ha _ hm) (by decide)
    | cons e r =>
      have he : e = Byte.carriageReturn := by
        have hend : Byte.isLineEnd e = true := by simpa [isInLine] using hr
        rcases Bool.or_eq_true _ _ ▸ hend with he | he
        · rw [beq_iff_eq.1 he] at hf
          simp at hf
        · exact beq_iff_eq.1 he
      subst he
      -- This carriage return belongs to no comment.
      have hrest : gap (r ++ Byte.lineFeed :: lineByLine level ls ++ u) = .ok (more, u) := by
        rw [← hmore, List.append_assoc, List.cons_append]
        exact (gap_blanks (w := [Byte.carriageReturn]) (by decide) _).symm
      have hle := gap_count_le hu hrest
      have hne : Byte.lineFeed ≠ Byte.carriageReturn := by decide
      simp only [List.count_append, List.count_cons, count_lineByLine, beq_iff_eq, hne, if_false, if_true]
        at hle hcount
      omega

/-! ## Writing a comment a second time -/

/-- If the text has to be written line by line, a line comment goes on to the end of each line, and the
last line is seen. -/
def Steady (t : Text) : Prop :=
  holds (utf8 "*/") t = true →
    (∀ line ∈ t.lines, Byte.carriageReturn ∉ line) ∧ t.lines.getLast? ≠ some []

instance (t : Text) : Decidable (Steady t) :=
  inferInstanceAs (Decidable (holds (utf8 "*/") t = true → _))

theorem exists_line_of_holds {t : Text} (h : holds (utf8 "*/") t = true) :
    ∃ line ∈ t.lines, utf8 "*/" <:+: line :=
  exists_line_of_isInfix (by decide) (by decide) (by decide) (holds_iff.1 h)

theorem lines_ne_nil {t : Text} (h : holds (utf8 "*/") t = true) : t.lines ≠ [] := by
  obtain ⟨line, hline, -⟩ := exists_line_of_holds h
  exact List.ne_nil_of_mem hline

theorem holds_join_lines {t : Text} (h : holds (utf8 "*/") t = true) :
    holds (utf8 "*/") (join newline t.lines) = true := by
  obtain ⟨line, hline, hin⟩ := exists_line_of_holds h
  exact holds_iff.2 (hin.trans (isInfix_join_of_mem hline))

theorem isSpace_of_holds {t : Text} (h : holds (utf8 "*/") t = true) : isSpace t = false := by
  cases hs : isSpace t with
  | false => rfl
  | true =>
    have hmem : ascii '*' ∈ t := (holds_iff.1 h).subset (by decide)
    exact absurd (within_of_isSpace hs _ hmem) (by decide)

/-- A comment that is written as a block comment or as whole lines is read from what is written. -/
theorem Steady.gap_leading {t : Text} (h : Steady t) (ht : isSpace t = false) (level : Nat) {u : Text}
    (hu : GapEnd u) : ∃ acc t', gap (Layout.standard.render (leading level t) ++ u) = .ok (acc, u) ∧
      commentText? acc = some t' ∧
      Layout.standard.render (leading level t') = Layout.standard.render (leading level t) := by
  cases hh : holds (utf8 "*/") t with
  | false =>
    have hwritable : Writable t := fun h => by rw [hh] at h; cases h
    obtain ⟨cs, hgap, rfl⟩ := isGap_leading Layout.blank_standard level hwritable
    refine ⟨collected cs, _, gap_append hgap hu, ?_, rfl⟩
    rw [commentText?_collected]
    exact kept_eq_some.2 ⟨rfl, ht⟩
  | true =>
    obtain ⟨hr, hlast⟩ := h hh
    have hin : ∀ line ∈ t.lines, Within isInLine line := by
      intro line hline b hb
      have hf : b ≠ Byte.lineFeed := fun he => lineFeed_of_mem_lines hline (he ▸ hb)
      have hc : b ≠ Byte.carriageReturn := fun he => hr line hline (he ▸ hb)
      simp [isInLine, Byte.isLineEnd, hf, hc]
    have hgap := isGap_lines Layout.blank_standard level hin
    have hjoin := holds_join_lines hh
    refine ⟨collected t.lines, join newline t.lines, ?_, ?_, ?_⟩
    · rw [render_leading_lines hh]
      exact gap_append hgap hu
    · rw [commentText?_collected]
      exact kept_eq_some.2 ⟨rfl, isSpace_of_holds hjoin⟩
    · rw [render_leading_lines hjoin, render_leading_lines hh,
        (lines_join (lines_ne_nil hh) (fun _ => lineFeed_of_mem_lines) hr).2 hlast]

/-- What is written in the same way as a text written line by line has the same lines. -/
theorem lines_eq_of_render {t t' : Text} (h : holds (utf8 "*/") t = true) {level : Nat}
    (he : Layout.standard.render (leading level t') = Layout.standard.render (leading level t)) :
    t'.lines = t.lines := by
  rw [render_leading_lines h] at he
  cases hh : holds (utf8 "*/") t' with
  | true =>
    rw [render_leading_lines hh] at he
    exact lineByLine_injective level (fun _ => lineFeed_of_mem_lines) (fun _ => lineFeed_of_mem_lines) he
  | false =>
    -- A block comment and a line comment differ in their second byte.
    obtain ⟨line, ls, hls⟩ := List.exists_cons_of_ne_nil (lines_ne_nil h)
    rw [render_leading_block hh, hls, lineByLine_cons, List.append_cancel_left_eq, blockStart, lineStart] at he
    simp only [List.cons_append, List.cons.injEq, true_and] at he
    exact absurd he.1 (by decide)

/-- **Which comments are written the same way the second time.** A comment in front of an element is read from
what is written of it, up to what follows, as a text that is written in the same way, exactly if it is written
as a block comment or no line of it holds a carriage return and its last line is not empty. -/
theorem gap_leading_iff {acc t : Text} (ht : commentText? acc = some t) (level : Nat) {b : UInt8}
    (hb : Byte.isBlank b = false) (hs : b ≠ ascii '/') (r : Text) :
    (∃ acc' t', gap (Layout.standard.render (leading level t) ++ b :: r) = .ok (acc', b :: r) ∧
      commentText? acc' = some t' ∧
      Layout.standard.render (leading level t') = Layout.standard.render (leading level t)) ↔
    Steady t := by
  constructor
  · rintro ⟨acc', t', hgap, ht', he⟩ h
    have hlines := lines_eq_of_render h he
    rw [render_leading_lines h] at hgap
    have hcount : t.lines.flatten.count Byte.carriageReturn ≤ acc'.count Byte.carriageReturn := by
      rw [← hlines]
      exact Nat.le_trans ((lines_flatten_sublist t').count_le _) (count_commentText? ht')
    obtain ⟨rfl, hr⟩ := gap_lineByLine (fun _ => lineFeed_of_mem_lines) (List.cons_ne_nil b r) hgap hcount
    rw [commentText?_collected] at ht'
    obtain ⟨rfl, -⟩ := kept_eq_some.1 ht'
    exact ⟨hr, (lines_join (lines_ne_nil h) (fun _ => lineFeed_of_mem_lines) hr).1 hlines⟩
  · intro h
    exact h.gap_leading (commentText?_isSpace ht) level (gapEnd_cons hb hs)

/-- Two line comments, the first of which would end a block comment. -/
theorem gap_leading_two_lines :
    commentText? (utf8 "*/\n b\n") = some (utf8 "*/\n b") ∧ Byte.isBlank (ascii 'n') = false ∧
    ascii 'n' ≠ ascii '/' ∧ Steady (utf8 "*/\n b") ∧
    ∃ acc' t', gap (Layout.standard.render (leading 1 (utf8 "*/\n b")) ++ ascii 'n' :: utf8 "amespace") =
        .ok (acc', ascii 'n' :: utf8 "amespace") ∧
      commentText? acc' = some t' ∧
      Layout.standard.render (leading 1 t') = Layout.standard.render (leading 1 (utf8 "*/\n b")) := by
  have ht : commentText? (utf8 "*/\n b\n") = some (utf8 "*/\n b") := by decide
  have hsteady : Steady (utf8 "*/\n b") := by decide
  exact ⟨ht, by decide, by decide, hsteady,
    (gap_leading_iff ht 1 (by decide) (by decide) (utf8 "amespace")).2 hsteady⟩

/-- A comment that ends in an empty line loses this line when it is read back, and of one with a carriage
return on a line the rest of the line is read as code. -/
theorem gap_leading_unsteady :
    (gap (utf8 "//*/\n/*\n*/\nnamespace") = .ok (utf8 "*/\n\n\n", utf8 "namespace") ∧
      commentText? (utf8 "*/\n\n\n") = some (utf8 "*/\n\n") ∧
      ¬∃ acc' t', gap (Layout.standard.render (leading 0 (utf8 "*/\n\n")) ++ utf8 "namespace") =
          .ok (acc', utf8 "namespace") ∧
        commentText? acc' = some t' ∧
        Layout.standard.render (leading 0 t') = Layout.standard.render (leading 0 (utf8 "*/\n\n"))) ∧
    (gap (utf8 "//*/\n/*a\rb*/\nnamespace") = .ok (utf8 "*/\na\rb\n", utf8 "namespace") ∧
      commentText? (utf8 "*/\na\rb\n") = some (utf8 "*/\na\rb") ∧
      ¬∃ acc', gap (Layout.standard.render (leading 0 (utf8 "*/\na\rb")) ++ utf8 "namespace") =
        .ok (acc', utf8 "namespace")) := by
  refine ⟨⟨by decide +kernel, by decide +kernel, ?_⟩, by decide +kernel, by decide +kernel, ?_⟩
  · rintro ⟨acc', t', hgap, ht', he⟩
    have hread : gap (Layout.standard.render (leading 0 (utf8 "*/\n\n")) ++ utf8 "namespace") =
        .ok (utf8 "*/\n\n", utf8 "namespace") := by decide +kernel
    have hkept : commentText? (utf8 "*/\n\n") = some (utf8 "*/\n") := by decide +kernel
    rw [hread] at hgap
    cases hgap
    rw [hkept] at ht'
    cases ht'
    exact absurd he (by decide +kernel)
  · rintro ⟨acc', hgap⟩
    have hread : gap (Layout.standard.render (leading 0 (utf8 "*/\na\rb")) ++ utf8 "namespace") =
        .ok (utf8 "*/\na\n", utf8 "b\nnamespace") := by decide +kernel
    rw [hread] at hgap
    have hrest : utf8 "b\nnamespace" = utf8 "namespace" := congrArg Prod.snd (Except.ok.inj hgap)
    exact absurd hrest (by decide)

end Comment

end PhpClass
