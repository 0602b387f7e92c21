import PhpClass.Grammar.Word
import PhpClass.Proofs.Trim

/-!
# Statements

A search for a terminator passes over whole strings and single bytes (`Scan.Passes`). It finds the first
terminator that is met with no bracket open, whatever follows it (`afterTerminator_eq_ok`). Bytes that no
scanner takes notice of may be left out on both sides of what is passed over, so trimming a statement does
not change where it ends (`passes_trim`).
-/

namespace PhpClass

open Text

namespace Scan

/-! ## Strings -/

theorem afterQuote_quote (quote : UInt8) (t : Text) : afterQuote quote (quote :: t) = some t := by
  rw [afterQuote.eq_def]
  simp

theorem afterQuote_escape {quote : UInt8} (hq : Byte.backslash ≠ quote) (b : UInt8) (t : Text) :
    afterQuote quote (Byte.backslash :: b :: t) = afterQuote quote t := by
  rw [afterQuote.eq_def]
  simp [hq]

theorem afterQuote_other {quote b : UInt8} (hq : b ≠ quote) (hs : b ≠ Byte.backslash) (t : Text) :
    afterQuote quote (b :: t) = afterQuote quote t := by
  rw [afterQuote.eq_def]
  simp [hq, hs]

theorem afterQuote_append {quote : UInt8} {t rest : Text} (h : afterQuote quote t = some rest)
    (more : Text) : afterQuote quote (t ++ more) = some (rest ++ more) := by
  fun_induction afterQuote quote t with
  | case1 => cases h
  | case2 => cases h; exact afterQuote_quote _ _
  | case3 => cases h
  | case4 b t hq ih => exact (afterQuote_escape hq b (t ++ more)).trans (ih h)
  | case5 b t hq hs ih => exact (afterQuote_other hq hs (t ++ more)).trans (ih h)

theorem afterQuote_eq_some {quote : UInt8} {t rest : Text} (h : afterQuote quote t = some rest) :
    ∃ s, t = s ++ rest ∧ afterQuote quote s = some [] ∧ s.getLast? = some quote := by
  fun_induction afterQuote quote t with
  | case1 => cases h
  | case2 => cases h; exact ⟨[quote], rfl, afterQuote_quote _ _, rfl⟩
  | case3 => cases h
  | case4 b t hq ih =>
    obtain ⟨s, rfl, hs, hl⟩ := ih h
    refine ⟨Byte.backslash :: b :: s, rfl, (afterQuote_escape hq b s).trans hs, ?_⟩
    rw [List.getLast?_cons_cons, List.getLast?_cons, hl]
    rfl
  | case5 b t hq hs ih =>
    obtain ⟨s, rfl, hs', hl⟩ := ih h
    refine ⟨b :: s, rfl, (afterQuote_other hq hs s).trans hs', ?_⟩
    rw [List.getLast?_cons, hl]
    rfl

theorem getLast?_of_afterQuote {quote : UInt8} {s : Text} (h : afterQuote quote s = some []) :
    s.getLast? = some quote := by
  obtain ⟨u, hu, -, hl⟩ := afterQuote_eq_some h
  rw [List.append_nil] at hu
  exact hu ▸ hl

/-! ## What is passed over -/

/-- What is passed over in search of a terminator, with the numbers of open brackets in front of it and
behind it. -/
inductive Passes (strings : Bool) (terminator : UInt8) : Text → Nat → Nat → Prop where
  | nil {d : Nat} : Passes strings terminator [] d d
  | quoted {q : UInt8} {s t : Text} {d e : Nat} (hq : (strings && Byte.isQuote q) = true)
      (hs : afterQuote q s = some []) (ht : Passes strings terminator t d e) :
      Passes strings terminator (q :: (s ++ t)) d e
  | byte {b : UInt8} {t : Text} {d e : Nat} (hq : (strings && Byte.isQuote b) = false)
      (hb : ¬(d = 0 ∧ b = terminator)) (ht : Passes strings terminator t (nest d b) e) :
      Passes strings terminator (b :: t) d e

variable {strings : Bool} {terminator : UInt8}

theorem Passes.append {s t : Text} {d e f : Nat} (hs : Passes strings terminator s d e)
    (ht : Passes strings terminator t e f) : Passes strings terminator (s ++ t) d f := by
  induction hs with
  | nil => exact ht
  | quoted hq hs _ ih =>
    rw [List.cons_append, List.append_assoc]
    exact .quoted hq hs (ih ht)
  | byte hq hb _ ih => exact .byte hq hb (ih ht)

theorem Passes.afterTerminator {s : Text} {d e : Nat} (hs : Passes strings terminator s d e)
    (t : Text) : afterTerminator strings terminator d (s ++ t) =
      Scan.afterTerminator strings terminator e t := by
  induction hs with
  | nil => rfl
  | @quoted q s u d e hq hs _ ih =>
    have hrest := afterQuote_append hs (u ++ t)
    rw [List.cons_append, List.append_assoc, Scan.afterTerminator, if_pos hq]
    split
    · next r hr =>
      rw [hr] at hrest
      cases hrest
      exact ih
    · next hr => rw [hr] at hrest; cases hrest
  | byte hq hb _ ih =>
    rw [List.cons_append, Scan.afterTerminator, if_neg (by simp [hq]), if_neg (by simpa using hb)]
    exact ih

theorem afterTerminator_here (hq : (strings && Byte.isQuote terminator) = false) (rest : Text) :
    afterTerminator strings terminator 0 (terminator :: rest) = .ok rest := by
  rw [afterTerminator, if_neg (by simp [hq]), if_pos (by simp)]

/-- The search ends at the first terminator that is met with no bracket open. -/
theorem afterTerminator_eq_ok (hq : (strings && Byte.isQuote terminator) = false) {d : Nat}
    {t rest : Text} : afterTerminator strings terminator d t = .ok rest ↔
      ∃ s, t = s ++ terminator :: rest ∧ Passes strings terminator s d 0 := by
  constructor
  · intro h
    fun_induction afterTerminator strings terminator d t with
    | case1 => cases h
    | case2 d b t hb r hr ih =>
      obtain ⟨s, rfl, hp⟩ := ih h
      obtain ⟨q, rfl, hs, -⟩ := afterQuote_eq_some hr
      exact ⟨b :: (q ++ s), by simp, .quoted hb hs hp⟩
    | case3 => cases h
    | case4 d b t hb hd =>
      cases h
      obtain ⟨rfl, rfl⟩ : d = 0 ∧ b = terminator := by simpa using hd
      exact ⟨[], rfl, .nil⟩
    | case5 d b t hb hd ih =>
      obtain ⟨s, rfl, hp⟩ := ih h
      exact ⟨b :: s, rfl, .byte (by simpa using hb) (by simpa using hd) hp⟩
  · rintro ⟨s, rfl, hs⟩
    rw [hs.afterTerminator, afterTerminator_here hq]

/-! ## Plain bytes -/

/-- Plain bytes open and close no bracket and end no statement. -/
theorem plain_spec (b : UInt8) (h : Byte.isPlain b = true) : Byte.isQuote b = false ∧ b ≠ ascii ';' ∧
    Byte.isOpener b = false ∧ Byte.isCloser b = false := by
  simp only [Byte.isPlain, Bool.not_eq_true', Bool.or_eq_false_iff, beq_eq_false_iff_ne] at h
  obtain ⟨⟨⟨⟨⟨hquote, -⟩, hopener⟩, hcloser⟩, -⟩, hsemicolon⟩ := h
  exact ⟨hquote, hsemicolon, hopener, hcloser⟩

theorem nest_plain {b : UInt8} (hb : Byte.isPlain b = true) (d : Nat) : nest d b = d := by
  obtain ⟨-, -, ho, hc⟩ := plain_spec b hb
  unfold nest
  rw [ho, hc]
  rfl

theorem passes_plain {w : Text} (hw : Within Byte.isPlain w) (d : Nat) :
    Passes strings (ascii ';') w d d := by
  induction w with
  | nil => exact .nil
  | cons b w ih =>
    rw [within_cons] at hw
    obtain ⟨hq, hs, -, -⟩ := plain_spec b hw.1
    refine .byte (by simp [hq]) (fun h => hs h.2) ?_
    rw [nest_plain hw.1]
    exact ih hw.2

theorem Passes.eq_of_plain {w : Text} {d e : Nat} (h : Passes strings (ascii ';') w d e)
    (hw : Within Byte.isPlain w) : d = e := by
  induction h with
  | nil => rfl
  | @quoted q s t d e hq hs _ ih =>
    rw [within_cons] at hw
    simp [(plain_spec q hw.1).1] at hq
  | @byte b t d e _ _ _ ih =>
    rw [within_cons] at hw
    rw [← nest_plain hw.1 d]
    exact ih hw.2

theorem Passes.of_plain_append {w t : Text} {d e : Nat} (hw : Within Byte.isPlain w)
    (h : Passes strings (ascii ';') (w ++ t) d e) : Passes strings (ascii ';') t d e := by
  induction w with
  | nil => exact h
  | cons b w ih =>
    rw [within_cons] at hw
    refine ih hw.2 ?_
    rw [List.cons_append] at h
    generalize hx : b :: (w ++ t) = x at h
    cases h with
    | nil => cases hx
    | @quoted q s u d e hq hs ht =>
      obtain ⟨rfl, -⟩ := List.cons.inj hx
      simp [(plain_spec b hw.1).1] at hq
    | byte hq hb ht =>
      cases hx
      rwa [nest_plain hw.1] at ht

theorem Passes.of_append_plain {w t : Text} {d e : Nat} (hw : Within Byte.isPlain w)
    (h : Passes strings (ascii ';') (t ++ w) d e) : Passes strings (ascii ';') t d e := by
  generalize hx : t ++ w = x at h
  induction h generalizing t with
  | nil =>
    obtain ⟨rfl, rfl⟩ := List.append_eq_nil_iff.1 hx
    exact .nil
  | @quoted q s u d e hq hs hu ih =>
    cases t with
    | nil =>
      rw [List.nil_append] at hx
      rw [hx, within_cons] at hw
      simp [(plain_spec q hw.1).1] at hq
    | cons b t =>
      obtain ⟨rfl, he⟩ := List.cons.inj hx
      rcases List.append_eq_append_iff.1 he with ⟨a, hsa, hwa⟩ | ⟨a, hta, hua⟩
      · -- The string ends in a quote, so it does not reach into the plain bytes.
        cases a with
        | nil =>
          rw [List.append_nil] at hsa
          rw [List.nil_append] at hwa
          have := Passes.quoted hq hs (ih (t := []) hwa)
          rwa [List.append_nil, hsa] at this
        | cons c a =>
          have hl := getLast?_of_afterQuote hs
          rw [hsa, List.getLast?_append, List.getLast?_eq_some_getLast (List.cons_ne_nil c a)] at hl
          have hmem : b ∈ w := by
            rw [hwa, ← Option.some.inj hl]
            exact List.mem_append_left _ (List.getLast_mem _)
          simp [(plain_spec b (hw b hmem)).1] at hq
      · rw [hta]
        exact .quoted hq hs (ih hua.symm)
  | @byte b u d e hq hb hu ih =>
    cases t with
    | nil =>
      rw [List.nil_append] at hx
      exact (Passes.byte hq hb hu).eq_of_plain (hx ▸ hw) ▸ .nil
    | cons c t =>
      obtain ⟨rfl, he⟩ := List.cons.inj hx
      exact .byte hq hb (ih he)

/-- Trimming a text leaves brackets and terminators alone. -/
theorem passes_trim {t : Text} {d e : Nat} (h : Passes strings (ascii ';') t d e) :
    Passes strings (ascii ';') (trim t) d e := by
  obtain ⟨w₁, w₂, ht, h₁, h₂⟩ := exists_trim t
  rw [ht, List.append_assoc] at h
  exact (h.of_plain_append h₁).of_append_plain h₂

/-! ## Statements -/

theorem terminated_eq_ok {t before rest : Text} :
    terminated strings (ascii ';') t = .ok (before, rest) ↔
      t = before ++ ascii ';' :: rest ∧ Passes strings (ascii ';') before 0 0 := by
  have hq : (strings && Byte.isQuote (ascii ';')) = false := by
    rw [show Byte.isQuote (ascii ';') = false by decide, Bool.and_false]
  constructor
  · intro h
    obtain ⟨r, hr, he⟩ := bind_eq_ok.1 h
    cases he
    obtain ⟨s, rfl, hs⟩ := (afterTerminator_eq_ok hq).1 hr
    rw [upTo_append]
    exact ⟨rfl, hs⟩
  · rintro ⟨rfl, hs⟩
    refine bind_eq_ok.2 ⟨rest, (afterTerminator_eq_ok hq).2 ⟨before, rfl, hs⟩, ?_⟩
    rw [upTo_append]
    rfl

/-- A text that a `;` behind it ends, and that is all of a statement. -/
structure IsStatement (strings : Bool) (t : Text) : Prop where
  ne_nil : t ≠ []
  trim : trim t = t
  ends : afterTerminator strings (ascii ';') 0 (t ++ [ascii ';']) = .ok []

theorem IsStatement.passes {t : Text} (h : IsStatement strings t) :
    Passes strings (ascii ';') t 0 0 := by
  have hq : (strings && Byte.isQuote (ascii ';')) = false := by
    rw [show Byte.isQuote (ascii ';') = false by decide, Bool.and_false]
  obtain ⟨s, he, hs⟩ := (afterTerminator_eq_ok hq).1 h.ends
  rwa [(List.append_inj' he rfl).1]

theorem isStatement_of_passes {t : Text} (h : Passes strings (ascii ';') t 0 0) (hne : t ≠ [])
    (ht : Text.trim t = t) : IsStatement strings t where
  ne_nil := hne
  trim := ht
  ends := by rw [h.afterTerminator, afterTerminator_here
    (by rw [show Byte.isQuote (ascii ';') = false by decide, Bool.and_false])]

end Scan

namespace Grammar

open Scan

variable {strings : Bool} {what : Expected}

/-- What a statement was read from, and what it is. -/
theorem statement_eq_ok {t v rest : Text} (h : statement strings what t = .ok (v, rest)) :
    IsStatement strings v ∧ ∃ s, t = s ++ ascii ';' :: rest ∧
      ∀ more, statement strings what (s ++ ascii ';' :: more) = .ok (v, more) := by
  obtain ⟨⟨s, r⟩, hs, h⟩ := bind_eq_ok.1 h
  dsimp only at h
  split at h
  · next v' hv =>
    cases h
    obtain ⟨rfl, hp⟩ := terminated_eq_ok.1 (Read.ofScan_eq_ok.1 hs)
    obtain ⟨rfl, hne⟩ := visible?_eq_some.1 hv
    refine ⟨isStatement_of_passes (passes_trim hp) hne (trim_trim s), s, rfl, fun more => ?_⟩
    refine bind_eq_ok.2 ⟨(s, more), Read.ofScan_eq_ok.2 (terminated_eq_ok.2 ⟨rfl, hp⟩), ?_⟩
    dsimp only
    rw [hv]
    rfl
  · cases h

/-- A statement is read whole from between blanks and its `;`. -/
theorem statement_append (what : Expected) {w v : Text} (hw : Within Byte.isBlank w)
    (hv : IsStatement strings v) (rest : Text) :
    statement strings what (w ++ v ++ ascii ';' :: rest) = .ok (v, rest) := by
  have hp := (passes_plain (hw.mono Byte.isPlain_of_isBlank) 0).append hv.passes
  have hvis := visible?_blanks hw hv.trim hv.ne_nil (within_nil _)
  rw [List.append_nil] at hvis
  refine bind_eq_ok.2 ⟨(w ++ v, rest), Read.ofScan_eq_ok.2 (terminated_eq_ok.2 ⟨rfl, hp⟩), ?_⟩
  dsimp only
  rw [hvis]
  rfl

end Grammar

end PhpClass
