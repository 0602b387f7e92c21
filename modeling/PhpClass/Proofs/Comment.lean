import PhpClass.Comment.Layout
import PhpClass.Proofs.Gap

/-!
# Comments that are written

A comment in front of an element is written as a gap with this comment (`Comment.isGap_before`), and one
behind an element as a line comment (`Comment.trailing_behind`). Both hold in every layout whose
indentation is blank and whose line breaks are blank and begin with the end of a line.

A text that would end a block comment too early is written as line comments. These hold the same text
only if its lines do, which is what `Comment.Writable` asks for.
-/

namespace PhpClass

open Text Scan

namespace Text

/-! ## Pieces between line feeds -/

theorem mem_pieces {t p : Text} {b : UInt8} (hp : p ∈ pieces t) (hb : b ∈ p) :
    b ≠ Byte.lineFeed ∧ b ∈ t := by
  unfold pieces at hp
  induction t generalizing p with
  | nil =>
    rw [List.splitOn_nil, List.mem_singleton] at hp
    subst hp
    cases hb
  | cons x t ih =>
    rw [List.splitOn_cons_eq_if_modifyHead] at hp
    split at hp
    · rcases List.mem_cons.1 hp with rfl | hp
      · cases hb
      · exact ⟨(ih hp hb).1, List.mem_cons_of_mem _ (ih hp hb).2⟩
    · next hx =>
      cases hs : t.splitOn Byte.lineFeed with
      | nil => exact absurd hs (List.splitOn_ne_nil _ t)
      | cons q qs =>
        rw [hs] at hp ih
        rcases List.mem_cons.1 hp with rfl | hp
        · rcases List.mem_cons.1 hb with rfl | hb
          · exact ⟨by simpa using hx, List.mem_cons_self⟩
          · have := ih List.mem_cons_self hb
            exact ⟨this.1, List.mem_cons_of_mem _ this.2⟩
        · have := ih (List.mem_cons_of_mem _ hp) hb
          exact ⟨this.1, List.mem_cons_of_mem _ this.2⟩

theorem pieces_getLast? {t : Text} (h : (pieces t).getLast? = some []) :
    t = [] ∨ t.getLast? = some Byte.lineFeed := by
  unfold pieces at h
  induction t with
  | nil => exact .inl rfl
  | cons x t ih =>
    right
    rw [List.splitOn_cons_eq_if_modifyHead] at h
    cases hs : t.splitOn Byte.lineFeed with
    | nil => exact absurd hs (List.splitOn_ne_nil _ t)
    | cons q qs =>
      rw [hs] at h ih
      split at h
      · next hx =>
        rw [List.getLast?_cons_cons] at h
        rcases ih h with rfl | hl
        · simpa using hx
        · rw [List.getLast?_cons, hl]
          rfl
      · cases qs with
        | nil => simp at h
        | cons r rs =>
          rw [List.modifyHead_cons, List.getLast?_cons_cons] at h
          rw [List.getLast?_cons_cons] at ih
          rcases ih h with rfl | hl
          · simp at hs
          · rw [List.getLast?_cons, hl]
            rfl

theorem dropReturn_eq_self {t : Text} (h : Byte.carriageReturn ∉ t) : dropReturn t = t := by
  unfold dropReturn
  rw [if_neg fun hl => h (List.mem_of_getLast? hl)]

/-- Without carriage returns and without a line feed at the end, lines are just the pieces. -/
theorem lines_eq_pieces {t : Text} (hne : t ≠ []) (hr : Byte.carriageReturn ∉ t)
    (hl : t.getLast? ≠ some Byte.lineFeed) : lines t = pieces t := by
  have hp : pieces t ≠ [] := List.splitOn_ne_nil _ t
  have hlast : (pieces t).getLastD [] ≠ [] := by
    intro h
    rw [List.getLastD_eq_getLast?, List.getLast?_eq_some_getLast hp, Option.getD_some] at h
    rcases pieces_getLast? (List.getLast?_eq_some_getLast hp ▸ congrArg some h) with h | h
    · exact hne h
    · exact hl h
  have hmap : (pieces t).dropLast.map dropReturn = (pieces t).dropLast := by
    refine (List.map_congr_left fun p hp => ?_).trans (List.map_id' _)
    exact dropReturn_eq_self fun hm => hr (mem_pieces ((List.dropLast_sublist _).mem hp) hm).2
  unfold lines
  dsimp only
  rw [if_neg (by simpa using hlast), hmap, List.getLastD_eq_getLast?, List.getLast?_eq_some_getLast hp]
  exact List.dropLast_concat_getLast hp

theorem join_pieces (t : Text) : join newline (pieces t) = t :=
  List.intercalate_splitOn Byte.lineFeed

end Text

/-! ## Layouts -/

namespace Layout

/-- Nothing but blanks around what is written, and a line ends where a line break stands. -/
structure Blank (l : Layout) : Prop where
  breaks : ∃ e w, l.newline = e :: w ∧ Byte.isLineEnd e = true
  newline : Within Byte.isBlank l.newline
  indent : Within Byte.isBlank l.indent

theorem blank_standard : standard.Blank :=
  ⟨⟨Byte.lineFeed, [], rfl, rfl⟩, by decide, by decide⟩

variable (l : Layout)

@[simp] theorem render_nil : l.render [] = [] := rfl

@[simp] theorem render_cons (p : Piece) (ps : List Piece) : l.render (p :: ps) = l.piece p ++ l.render ps :=
  List.flatMap_cons

@[simp] theorem render_append (ps qs : List Piece) :
    l.render (ps ++ qs) = l.render ps ++ l.render qs :=
  List.flatMap_append

@[simp] theorem piece_text (t : Text) : l.piece (.text t) = t := rfl

@[simp] theorem piece_word (s : String) : l.piece (.word s) = utf8 s := rfl

@[simp] theorem piece_newline : l.piece .newline = l.newline := rfl

@[simp] theorem piece_space : l.piece .space = [Byte.space] := rfl

variable {l : Layout}

theorem Blank.piece_indent (hl : l.Blank) (level : Nat) : Within Byte.isBlank (l.piece (.indent level)) := by
  intro b hb
  obtain ⟨t, ht, hb⟩ := List.mem_flatten.1 hb
  exact hl.indent b (List.eq_of_mem_replicate ht ▸ hb)

end Layout

namespace Comment

/-! ## Comments in front of an element -/

/-- A text whose lines are what stands between its line feeds, if it has to be written line by line. -/
def Writable (t : Text) : Prop :=
  holds (utf8 "*/") t = true → Byte.carriageReturn ∉ t ∧ t.getLast? ≠ some Byte.lineFeed

instance (t : Text) : Decidable (Writable t) :=
  inferInstanceAs (Decidable (holds (utf8 "*/") t = true → _))

variable {l : Layout}

theorem isGap_lines (hl : l.Blank) (level : Nat) {lines : List Text}
    (hlines : ∀ line ∈ lines, Within isInLine line) :
    IsGap (l.render (lines.flatMap fun line => [.indent level, .word "//", .text line, .newline]))
      lines := by
  induction lines with
  | nil => exact .nil
  | cons line lines ih =>
    obtain ⟨e, w, hnl, he⟩ := hl.breaks
    have hw : Within Byte.isBlank w := by
      have := hl.newline
      rw [hnl, within_cons] at this
      exact this.2
    have hrest := (isGap_blanks hw).append (ih fun x hx => hlines x (List.mem_cons_of_mem _ hx))
    have hblank := Byte.isBlank_of_isLineEnd e he
    have hgap := (isGap_blanks (hl.piece_indent level)).append
      (.line (hlines line List.mem_cons_self) he (.blank hblank hrest))
    simpa [hnl] using hgap

/-- A comment that is written on lines of its own is a gap with this comment. -/
theorem isGap_leading (hl : l.Blank) (level : Nat) {t : Text} (ht : Writable t) :
    ∃ cs, IsGap (l.render (leading level t)) cs ∧ join newline cs = t := by
  unfold leading
  split
  · next h =>
    obtain ⟨hr, hlast⟩ := ht h
    have hne : t ≠ [] := by
      rintro rfl
      revert h
      decide
    rw [lines_eq_pieces hne hr hlast]
    refine ⟨pieces t, isGap_lines hl level fun p hp b hb => ?_, join_pieces t⟩
    obtain ⟨hf, hm⟩ := mem_pieces hp hb
    have hc : b ≠ Byte.carriageReturn := fun h => hr (h ▸ hm)
    simp [isInLine, Byte.isLineEnd, hf, hc]
  · next h =>
    have hgap := (isGap_blanks (hl.piece_indent level)).append
      (.block (by simpa using h) (isGap_blanks hl.newline))
    exact ⟨[t], by simpa using hgap, List.intercalate_singleton⟩

/-- What is kept of a comment in front of an element. -/
theorem isGap_before (hl : l.Blank) (level : Nat) {c : Option Text} (hc : ∀ t ∈ c, Writable t) :
    ∃ cs, IsGap (l.render (before level c)) cs ∧ kept (join newline cs) = c.bind kept := by
  cases c with
  | none => exact ⟨[], .nil, rfl⟩
  | some t =>
    obtain ⟨cs, hg, rfl⟩ := isGap_leading hl level (hc t rfl)
    exact ⟨cs, hg, rfl⟩

/-! ## Comments behind an element -/

/-- A comment behind an element as it is read back: what is visible of it, on one line. -/
def shown (c : Option Text) : Option Text := (c.bind visible?).map oneLine

/-- A text that a comment behind an element can be. -/
structure IsShown (t : Text) : Prop where
  trim : Text.trim t = t
  ne_nil : t ≠ []
  inLine : Within isInLine t

theorem render_behind (c : Option Text) :
    l.render (behind c) = (shown c).elim [] fun t => utf8 " // " ++ t := by
  unfold behind shown
  cases c.bind visible? with
  | none => rfl
  | some t => simp

theorem isShown_oneLine {t : Text} (ht : Text.trim t = t) (hne : t ≠ []) : IsShown (oneLine t) where
  trim := trim_oneLine ht
  ne_nil := by simpa [oneLine] using hne
  inLine := fun b hb => by simp [isInLine, isLineEnd_of_mem_oneLine b hb]

theorem isShown_of_shown {c : Option Text} {t : Text} (h : shown c = some t) : IsShown t := by
  obtain ⟨v, hv, rfl⟩ := Option.map_eq_some_iff.1 h
  obtain ⟨u, -, hu⟩ := Option.bind_eq_some_iff.1 hv
  obtain ⟨rfl, hne⟩ := visible?_eq_some.1 hu
  exact isShown_oneLine (trim_trim u) hne

/-- A comment that is read behind an element is read back as itself. -/
theorem shown_eq_self {c : Option Text} (h : ∀ t ∈ c, IsShown t) : shown c = c := by
  cases c with
  | none => rfl
  | some t =>
    obtain ⟨ht, hne, hw⟩ := h t rfl
    unfold shown
    rw [Option.bind_some, visible?_eq_some.2 ⟨ht, hne⟩, Option.map_some,
      oneLine_eq_self fun b hb => by simpa [isInLine] using hw b hb]

theorem isShown_trailing {t c : Text} (h : (trailing t).1 = some c) : IsShown c := by
  rw [trailing_eq] at h
  obtain ⟨x, hx, hv⟩ := Option.bind_eq_some_iff.1 h
  obtain ⟨rfl, hne⟩ := visible?_eq_some.1 hv
  rcases hl : lineComment t with ⟨o, rest⟩
  rw [hl] at hx
  cases hx
  obtain ⟨sp, -, -, hin, -⟩ := lineComment_eq_some hl
  obtain ⟨w₁, w₂, hw, -, -⟩ := exists_trim x
  rw [hw, within_append, within_append] at hin
  exact ⟨trim_trim x, hne, hin.1.2⟩

/-- Two comments on one line are one. -/
theorem IsShown.append {s t : Text} (hs : IsShown s) (ht : IsShown t) : IsShown (s ++ utf8 " " ++ t) := by
  have he : s ++ utf8 " " ++ t = s ++ Byte.space :: t := by simp [show utf8 " " = [Byte.space] by decide]
  rw [he]
  refine ⟨trim_append_blank (by decide) hs.trim ht.trim hs.ne_nil ht.ne_nil, by simp, ?_⟩
  rw [within_append, within_cons]
  exact ⟨hs.inLine, by decide, ht.inLine⟩

theorem word_behind : utf8 " // " = [Byte.space] ++ utf8 "//" ++ [Byte.space] := by decide

/-- A comment behind an element is read as the line comment there. -/
theorem trailing_behind {e : UInt8} (he : Byte.isLineEnd e = true) (c : Option Text) (rest : Text) :
    trailing (l.render (behind c) ++ e :: rest) = (shown c, e :: rest) := by
  have hr : Apart isInLine (e :: rest) := by simp [isInLine, he]
  rw [render_behind]
  unfold trailing
  cases hs : shown c with
  | none =>
    obtain ⟨hgap, hslash⟩ := Byte.isLineEnd_spec e he
    have hn : startsWith (utf8 "//") (e :: rest) = false := by
      rw [lineStart]
      simp [startsWith, after?, hslash.symm]
    have hread := lineComment_none (within_nil _) (apart_cons.2 hgap) hn
    rw [Option.elim_none, hread]
    rfl
  | some t =>
    obtain ⟨ht, hne, hw⟩ := isShown_of_shown hs
    have hin : Within isInLine ([Byte.space] ++ t) := by
      rw [within_append]
      exact ⟨by decide, hw⟩
    have hread := lineComment_some isGap_space hin hr
    rw [Option.elim_some, word_behind]
    simp only [List.append_assoc] at hread ⊢
    rw [hread]
    have hv := visible?_blanks isBlank_space ht hne (within_nil _)
    rw [List.append_nil] at hv
    dsimp only
    rw [Option.bind_some, hv]

/-- The same in front of a line break of the layout. -/
theorem trailing_newline (hl : l.Blank) (c : Option Text) (rest : Text) :
    trailing (l.render (behind c) ++ (l.newline ++ rest)) = (shown c, l.newline ++ rest) := by
  obtain ⟨e, w, hnl, he⟩ := hl.breaks
  rw [hnl]
  exact trailing_behind he c (w ++ rest)

end Comment

/-! ## Elements -/

namespace Element

variable {α : Type} {e : Element α}

/-- The element as it is read back. -/
def reread (e : Element α) : Element α :=
  ⟨e.payload, e.commentBefore.bind kept, Comment.shown e.trailingComment⟩

/-- The comments are such as are read. -/
structure Normal (e : Element α) : Prop where
  before : ∀ t ∈ e.commentBefore, isSpace t = false
  behind : ∀ t ∈ e.trailingComment, Comment.IsShown t

theorem Normal.reread_eq (h : e.Normal) : e.reread = e := by
  unfold reread
  rw [bind_kept_eq_self h.before, Comment.shown_eq_self h.behind]

end Element

end PhpClass
