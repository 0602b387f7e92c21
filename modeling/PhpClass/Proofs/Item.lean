import PhpClass.Proofs.Part
import PhpClass.Scan.Strip

/-!
# Items of a list

Taking the comments out of a part of a list leaves an item (`isItem_bare`): code without comments whose
strings and brackets are complete and that holds no comma of the list. An item is its own single part and
may stand in brackets (`isItem_iff`), and trimming keeps it one (`IsItem.trim`). A list of parts, with their comments or
without, falls into the parts again (`split_join`).
-/

namespace PhpClass

open Text

namespace Scan

/-! ## Code without its comments -/

/-- A token with a space in the place of a comment. -/
def Token.bare (k : Token) : Token := if k.kind = .comment then ⟨.byte, [Byte.space]⟩ else k

theorem bare_of_comment {k : Token} (h : k.kind = .comment) : k.bare = ⟨.byte, [Byte.space]⟩ := if_pos h

theorem bare_of_ne {k : Token} (h : k.kind ≠ .comment) : k.bare = k := if_neg h

/-- The number of comments. -/
def comments (ks : List Token) : Nat := ks.countP fun k => k.kind = .comment

theorem stripLexemes_code {ks : List Token} (h : Lexes ks []) :
    stripLexemes (code ks) = .ok ⟨code (ks.map Token.bare), comments ks⟩ := by
  induction ks with
  | nil => rw [code_nil, stripLexemes.eq_def]; rfl
  | cons k ks ih =>
    obtain ⟨b, u, hb, hl⟩ := h.1.exists_lexeme
    rw [List.append_nil] at hl
    have hcode : code (k :: ks) = b :: (u ++ code ks) := by rw [code_cons, hb]; rfl
    rw [hcode, stripLexemes]
    split
    · next he => rw [hl] at he; cases he
    · next he =>
      rw [hl, Except.ok.injEq, Prod.mk.injEq] at he
      obtain ⟨hkind, rfl⟩ := he
      rw [ih h.2, List.map_cons, bare_of_comment hkind, comments, comments,
        List.countP_cons_of_pos (by simpa using hkind)]
      rfl
    · next he =>
      rw [hl, Except.ok.injEq, Prod.mk.injEq] at he
      obtain ⟨hkind, rfl⟩ := he
      obtain ⟨b', rfl⟩ := h.1.eq_byte hkind
      cases hb
      rw [ih h.2, List.map_cons, bare_of_ne (by simp), comments, comments,
        List.countP_cons_of_neg (by simp)]
      rfl
    · next he =>
      rw [hl, Except.ok.injEq, Prod.mk.injEq] at he
      obtain ⟨hkind, rfl⟩ := he
      have hread : upTo (b :: (u ++ code ks)) (code ks) = k.text := by
        rw [← List.cons_append, ← hb, upTo_append]
      rw [ih h.2, List.map_cons, bare_of_ne (by simp [hkind]), comments, comments,
        List.countP_cons_of_neg (by simp [hkind]), hread]
      rfl

/-- A text from which the comments can be taken out consists of tokens. -/
theorem exists_code_of_stripLexemes {t : Text} {s : Stripped} (h : stripLexemes t = .ok s) :
    ∃ ks, t = code ks ∧ Lexes ks [] := by
  fun_induction stripLexemes t generalizing s with
  | case1 => exact ⟨[], rfl, trivial⟩
  | case2 => cases h
  | case3 b t rest hl ih | case4 b t rest hl ih | case5 b t rest hl ih =>
    obtain ⟨r, hr, -⟩ := bind_eq_ok.1 h
    exact exists_code_of_lexeme hl (ih hr)

theorem comments_eq_zero {ks : List Token} : comments ks = 0 ↔ ∀ k ∈ ks, k.kind ≠ .comment := by
  simp [comments, List.countP_eq_zero]

theorem map_bare_eq_self {ks : List Token} (h : ∀ k ∈ ks, k.kind ≠ .comment) :
    ks.map Token.bare = ks :=
  (List.map_congr_left fun k hk => bare_of_ne (h k hk)).trans (List.map_id' ks)

theorem contains_slash_of_comment {k : Token} {rest : Text} (h : Stands k rest) (hk : k.kind = .comment) :
    ascii '/' ∈ k.text := by
  cases h with
  | quoted | byte => cases hk
  | block | line => simp [blockStart, lineStart]

/-- Taking out the comments, with the shortcut for code without a slash. -/
theorem strip_code {ks : List Token} (h : Lexes ks []) :
    strip (code ks) = .ok ⟨code (ks.map Token.bare), comments ks⟩ := by
  unfold strip
  split
  · exact stripLexemes_code h
  · next hs =>
    have hno : ∀ k ∈ ks, k.kind ≠ .comment := by
      intro k hk hc
      obtain ⟨a, b, rfl⟩ := List.append_of_mem hk
      have hmem := contains_slash_of_comment (lexes_append.1 h).2.1 hc
      refine hs (List.contains_iff_mem.2 ?_)
      rw [code_append, code_cons]
      exact List.mem_append_right _ (List.mem_append_left _ hmem)
    rw [map_bare_eq_self hno, comments_eq_zero.2 hno]

theorem bare_kind (k : Token) : k.bare.kind ≠ .comment := by
  by_cases hk : k.kind = .comment
  · rw [bare_of_comment hk]
    simp
  · rwa [bare_of_ne hk]

theorem kind_of_mem_bare {ks : List Token} : ∀ k ∈ ks.map Token.bare, k.kind ≠ .comment := by
  intro k hk
  obtain ⟨j, -, rfl⟩ := List.mem_map.1 hk
  exact bare_kind j

theorem lexes_bare {ks : List Token} {rest : Text} (h : Lexes ks rest) :
    Lexes (ks.map Token.bare) rest := by
  induction ks with
  | nil => trivial
  | cons k ks ih =>
    refine ⟨?_, ih h.2⟩
    by_cases hk : k.kind = .comment
    · rw [bare_of_comment hk]
      exact stands_plain (by decide) _
    · rw [bare_of_ne hk]
      cases ks with
      | nil => exact h.1
      | cons j js =>
        -- A space or the next token itself follows.
        by_cases hj : j.kind = .comment
        · refine h.1.alone.extend hk ?_
          rw [List.map_cons, bare_of_comment hj, code_cons]
          simp only [List.cons_append, apart_cons]
          decide
        · refine h.1.congr ?_
          rw [List.map_cons, bare_of_ne hj, code_cons, code_cons]
          obtain ⟨b, u, hb⟩ := List.exists_cons_of_ne_nil h.2.1.text_ne_nil
          rw [hb]
          rfl

theorem owe_bare (k : Token) (owed : List UInt8) : owe owed k.bare = owe owed k := by
  by_cases hk : k.kind = .comment
  · rw [bare_of_comment hk, owe_of_ne (k := k) (by simp [hk])]
    rfl
  · rw [bare_of_ne hk]

theorem nest_bare (k : Token) (depth : Nat) : k.bare.nest depth = k.nest depth := by
  by_cases hk : k.kind = .comment
  · rw [bare_of_comment hk, nest_of_ne (k := k) (by simp [hk])]
    rfl
  · rw [bare_of_ne hk]

theorem bare_eq_comma {k : Token} : k.bare = comma ↔ k = comma := by
  by_cases hk : k.kind = .comment
  · rw [bare_of_comment hk]
    refine ⟨fun h => absurd h (by decide), fun h => ?_⟩
    rw [h] at hk
    cases hk
  · rw [bare_of_ne hk]

theorem foldlM_owe_bare (ks : List Token) (owed : List UInt8) :
    (ks.map Token.bare).foldlM owe owed = ks.foldlM owe owed := by
  rw [List.foldlM_map]
  simp only [owe_bare]

theorem parts_bare (ks : List Token) (depth : Nat) :
    parts depth (ks.map Token.bare) = (parts depth ks).map (List.map Token.bare) := by
  induction ks generalizing depth with
  | nil => rfl
  | cons k ks ih =>
    rw [List.map_cons, parts, parts, nest_bare, ih, ih]
    simp only [bare_eq_comma]
    split
    · rfl
    · cases parts (k.nest depth) ks <;> rfl

theorem IsPart.bare {ks : List Token} (h : IsPart ks) : IsPart (ks.map Token.bare) where
  balanced := (foldlM_owe_bare ks []).trans h.balanced
  whole := by rw [parts_bare, h.whole]; rfl

/-! ## Items -/

/-- Code without comments that can stand between two commas of a list: its strings and brackets are
complete, and its commas stand inside of them. -/
def IsItem (t : Text) : Prop :=
  ∃ ks, t = code ks ∧ Lexes ks [] ∧ (∀ k ∈ ks, k.kind ≠ .comment) ∧ IsPart ks

theorem isItem_bare {ks : List Token} (h : Lexes ks []) (hp : IsPart ks) :
    IsItem (code (ks.map Token.bare)) :=
  ⟨_, rfl, lexes_bare h, kind_of_mem_bare, hp.bare⟩

theorem isItem_plain {w : Text} (hw : Within Byte.isPlain w) : IsItem w :=
  ⟨bytes w, (code_bytes w).symm, lexes_bytes hw [], fun _ hk => by simp [kind_of_mem_bytes hk], .bytes hw⟩

theorem IsItem.plain_append {w t : Text} (hw : Within Byte.isPlain w) (ht : IsItem t) : IsItem (w ++ t) := by
  obtain ⟨ks, rfl, hk, hkc, hkp⟩ := ht
  refine ⟨bytes w ++ ks, by simp, ?_, ?_, (IsPart.bytes hw).append (lexes_bytes hw []) hkp⟩
  · rw [lexes_append]
    exact ⟨lexes_bytes hw _, hk⟩
  · intro k hk
    rcases List.mem_append.1 hk with hk | hk
    · simp [kind_of_mem_bytes hk]
    · exact hkc k hk

theorem IsItem.append {s t : Text} (hs : IsItem s) (ht : IsItem t)
    (hap : Apart Stands.isCommentByte t) : IsItem (s ++ t) := by
  obtain ⟨ks, rfl, hk, hkc, hkp⟩ := hs
  obtain ⟨ms, rfl, hm, hmc, hmp⟩ := ht
  refine ⟨ks ++ ms, (code_append ks ms).symm, ?_, ?_, hkp.append hk hmp⟩
  · rw [lexes_append, List.append_nil]
    exact ⟨hk.extend hkc hap, hm⟩
  · intro k hk
    rcases List.mem_append.1 hk with hk | hk
    · exact hkc k hk
    · exact hmc k hk

theorem code_eq_nil {ks : List Token} {rest : Text} (h : Lexes ks rest) (hc : code ks = []) : ks = [] := by
  cases ks with
  | nil => rfl
  | cons k ks =>
    rw [code_cons, List.append_eq_nil_iff] at hc
    exact absurd hc.1 h.1.text_ne_nil

/-- Plain bytes at the front of code are tokens of their own. -/
theorem exists_of_plain_append {ks : List Token} {w t rest : Text} (hw : Within Byte.isPlain w)
    (h : Lexes ks rest) (hc : code ks = w ++ t) : ∃ ms, ks = bytes w ++ ms ∧ code ms = t := by
  induction w generalizing ks with
  | nil => exact ⟨ks, rfl, hc⟩
  | cons b w ih =>
    rw [within_cons] at hw
    cases ks with
    | nil => cases hc
    | cons k ks =>
      have hk : k = ⟨.byte, [b]⟩ := by
        obtain ⟨hst, -⟩ := h
        rw [code_cons] at hc
        cases hst with
        | quoted hq hs =>
          obtain ⟨rfl, -⟩ := List.cons.inj hc
          simp [(plain_spec _ hw.1).1] at hq
        | block | line =>
          simp only [blockStart, lineStart, List.cons_append, List.cons.injEq] at hc
          exact absurd hc.1.symm (plain_ne_slash b hw.1).1
        | byte => rw [(List.cons.inj hc).1]
      subst hk
      obtain ⟨ms, rfl, hms⟩ := ih hw.2 h.2 (List.cons.inj hc).2
      exact ⟨ms, rfl, hms⟩

/-- A string ends in its quote, so no plain bytes can be cut off it. -/
theorem Stands.plain_end {k : Token} {rest s a : Text} (h : Stands k rest) (hk : k.kind ≠ .comment)
    (ht : k.text = s ++ a) (hs : s ≠ []) (ha : Within Byte.isPlain a) : a = [] := by
  obtain ⟨b, s, rfl⟩ := List.exists_cons_of_ne_nil hs
  cases h with
  | block | line => exact absurd rfl hk
  | byte => exact (List.append_eq_nil_iff.1 (List.cons.inj ht).2.symm).2
  | quoted hq hsq =>
    obtain ⟨rfl, rfl⟩ := List.cons.inj ht
    cases a with
    | nil => rfl
    | cons c a =>
      have hl := getLast?_of_afterQuote hsq
      rw [List.append_eq, List.getLast?_append, List.getLast?_eq_some_getLast (List.cons_ne_nil c a)] at hl
      have hplain := ha _ (List.getLast_mem (List.cons_ne_nil c a))
      rw [Option.some.inj hl] at hplain
      simp [(plain_spec _ hplain).1] at hq

/-- Plain bytes at the end of code without comments are tokens of their own. -/
theorem exists_of_append_plain {ks : List Token} {w t rest : Text} (hw : Within Byte.isPlain w)
    (h : Lexes ks rest) (hk : ∀ k ∈ ks, k.kind ≠ .comment) (hc : code ks = t ++ w) :
    ∃ ms, ks = ms ++ bytes w ∧ code ms = t := by
  induction ks generalizing t with
  | nil =>
    obtain ⟨rfl, rfl⟩ := List.append_eq_nil_iff.1 hc.symm
    exact ⟨[], rfl, rfl⟩
  | cons k ks ih =>
    by_cases ht : t = []
    · subst ht
      obtain ⟨ms, hms, hnil⟩ := exists_of_plain_append (t := []) hw h (by simpa using hc)
      rw [hms, lexes_append] at h
      have := code_eq_nil h.2 hnil
      subst this
      exact ⟨[], by simpa using hms, rfl⟩
    · have ih := fun t => ih (t := t) h.2 fun j hj => hk j (List.mem_cons_of_mem _ hj)
      rw [code_cons] at hc
      rcases List.append_eq_append_iff.1 hc with ⟨a, rfl, ha⟩ | ⟨a, hka, ha⟩
      · obtain ⟨ms, rfl, rfl⟩ := ih a ha
        exact ⟨k :: ms, rfl, code_cons k ms⟩
      · have hplain : Within Byte.isPlain a := by
          rw [ha, within_append] at hw
          exact hw.1
        have hnil := h.1.plain_end (hk k List.mem_cons_self) hka ht hplain
        subst hnil
        obtain ⟨ms, rfl, hms⟩ := ih [] ha.symm
        refine ⟨k :: ms, rfl, ?_⟩
        rw [code_cons, hms, hka, List.append_nil, List.append_nil]

/-- Trimming an item leaves an item. -/
theorem IsItem.trim {t : Text} (h : IsItem t) : IsItem (Text.trim t) := by
  obtain ⟨w₁, w₂, ht, h₁, h₂⟩ := exists_trim t
  obtain ⟨ks, hc, hks, hkc, hkp⟩ := h
  rw [ht, List.append_assoc] at hc
  obtain ⟨ms, rfl, hms⟩ := exists_of_plain_append h₁ hks hc.symm
  rw [lexes_append] at hks
  have hmc : ∀ k ∈ ms, k.kind ≠ .comment := fun k hk => hkc k (List.mem_append_right _ hk)
  obtain ⟨js, rfl, hjs⟩ := exists_of_append_plain h₂ hks.2 hmc hms
  rw [lexes_append] at hks
  refine ⟨js, hjs.symm, hks.2.1.alone, fun k hk => hmc k (List.mem_append_left _ hk), ?_⟩
  exact (hkp.of_bytes_append h₁).of_append_bytes h₂

/-- A part of a list from which plain bytes are cut off at the front is still one. -/
theorem IsItem.of_plain_append {w t : Text} (hw : Within Byte.isPlain w) (h : IsItem (w ++ t)) :
    IsItem t := by
  obtain ⟨ks, hc, hks, hkc, hkp⟩ := h
  obtain ⟨ms, rfl, rfl⟩ := exists_of_plain_append hw hks hc.symm
  rw [lexes_append] at hks
  exact ⟨ms, rfl, hks.2, fun k hk => hkc k (List.mem_append_right _ hk), hkp.of_bytes_append hw⟩

/-- A text in round brackets. -/
def inBrackets (t : Text) : Text := ascii '(' :: (t ++ [ascii ')'])

theorem bracketed_inBrackets {ks : List Token} {rest : Text} (h : Lexes ks (ascii ')' :: rest)) (hb : Balanced ks) :
    bracketed (inBrackets (code ks) ++ rest) = .ok (inBrackets (code ks), rest) :=
  bracketed_eq_ok.2 ⟨_, _, ks, rfl, rfl, rfl, h, hb⟩

theorem apart_closing (rest : Text) : Apart Stands.isCommentByte (ascii ')' :: rest) := by
  rw [apart_cons]
  decide

/-- An item holds no comment, is one part, and may stand in brackets. -/
theorem isItem_iff {t : Text} : IsItem t ↔ stripLexemes t = .ok ⟨t, 0⟩ ∧ split t = .ok [t] ∧
    bracketed (inBrackets t) = .ok (inBrackets t, []) := by
  constructor
  · rintro ⟨ks, rfl, hks, hkc, hkp⟩
    refine ⟨?_, ?_, ?_⟩
    · rw [stripLexemes_code hks, map_bare_eq_self hkc, comments_eq_zero.2 hkc]
    · rw [split_code hks, hkp.whole]
      rfl
    · simpa using bracketed_inBrackets (hks.extend hkc (apart_closing [])) hkp.balanced
  · rintro ⟨hs, hp, hb⟩
    obtain ⟨o, c, ks, -, he, -, hks, hbal⟩ := bracketed_eq_ok.1 hb
    obtain ⟨-, he⟩ := List.cons.inj he
    obtain ⟨rfl, -⟩ := List.append_inj' he rfl
    have hks := hks.alone
    rw [stripLexemes_code hks, Except.ok.injEq, Stripped.mk.injEq] at hs
    rw [split_code hks, Except.ok.injEq] at hp
    obtain ⟨p, hone, -⟩ := List.map_eq_singleton_iff.1 hp
    obtain rfl := eq_of_parts_eq_singleton hone
    exact ⟨p, rfl, hks, comments_eq_zero.1 hs.2, hbal, hone⟩

/-! ## Lists -/

/-- A part of a list with its comments: its strings, comments and brackets are complete, and its commas stand inside
of them. -/
def IsSegment (t : Text) : Prop :=
  ∃ ks, t = code ks ∧ (∀ rest, Apart Stands.isCommentByte rest → Lexes ks rest) ∧ IsPart ks

theorem IsItem.isSegment {t : Text} (h : IsItem t) : IsSegment t := by
  obtain ⟨ks, rfl, hks, hkc, hkp⟩ := h
  exact ⟨ks, rfl, fun _ hr => hks.extend hkc hr, hkp⟩

/-- A list that is put together from parts falls into them again. -/
theorem exists_join {ts : List Text} (h : ∀ t ∈ ts, IsSegment t) (hne : ts ≠ []) :
    ∃ ks, code ks = join (utf8 ",") ts ∧ (∀ rest, Apart Stands.isCommentByte rest → Lexes ks rest) ∧ Balanced ks ∧
      (parts 0 ks).map code = ts := by
  induction ts with
  | nil => exact absurd rfl hne
  | cons t ts ih =>
    obtain ⟨ks, rfl, hks, hkp⟩ := h t List.mem_cons_self
    cases ts with
    | nil => exact ⟨ks, List.intercalate_singleton.symm, hks, hkp.balanced, by rw [hkp.whole]; rfl⟩
    | cons u ts =>
      obtain ⟨ms, hms, hm, hmb, hmp⟩ := ih (fun x hx => h x (List.mem_cons_of_mem _ hx)) (by simp)
      have hap : ∀ rest, Apart Stands.isCommentByte (code (comma :: ms) ++ rest) := by
        intro rest
        rw [code_cons]
        simp only [comma, List.cons_append, apart_cons]
        decide
      have howe : owe [] comma = some [] := by decide
      refine ⟨ks ++ comma :: ms, ?_, ?_, ?_, ?_⟩
      · rw [join_cons_cons, ← hms, code_append, code_cons, List.append_assoc]
        rfl
      · intro rest hrest
        rw [lexes_append, lexes_cons]
        exact ⟨hks _ (hap rest), stands_comma _, hm rest hrest⟩
      · unfold Balanced
        rw [List.foldlM_append, hkp.balanced, Option.bind_eq_bind, Option.bind_some, List.foldlM_cons, howe]
        exact hmb
      · have hdepth : ks.foldl (fun depth k => k.nest depth) 0 = 0 :=
          foldl_nest_of_owe (hks [] (apart_nil _)) hkp.balanced
        rw [parts_append hkp.whole, hdepth, parts, if_pos ⟨rfl, rfl⟩, List.modifyHead_cons, List.append_nil,
          List.map_cons, hmp]

theorem split_join {ts : List Text} (h : ∀ t ∈ ts, IsSegment t) (hne : ts ≠ []) :
    split (join (utf8 ",") ts) = .ok ts := by
  obtain ⟨ks, hc, hks, -, hp⟩ := exists_join h hne
  rw [← hc, split_code (hks [] (apart_nil _)), hp]

theorem bracketed_join {ts : List Text} (h : ∀ t ∈ ts, IsSegment t) (hne : ts ≠ []) (rest : Text) :
    bracketed (inBrackets (join (utf8 ",") ts) ++ rest) = .ok (inBrackets (join (utf8 ",") ts), rest) := by
  obtain ⟨ks, hc, hks, hb, -⟩ := exists_join h hne
  rw [← hc]
  exact bracketed_inBrackets (hks _ (apart_closing rest)) hb

theorem strip_item {t : Text} (h : IsItem t) : strip t = .ok ⟨t, 0⟩ := by
  obtain ⟨ks, rfl, hks, hkc, -⟩ := h
  rw [strip_code hks, map_bare_eq_self hkc, comments_eq_zero.2 hkc]

end Scan

end PhpClass
