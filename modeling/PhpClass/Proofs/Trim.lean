import PhpClass.Proofs.Word

/-!
# Trimming

A text is trimmed when no white space stands at its front and at its end. Trimming cuts off bytes that
no scanner takes notice of (`exists_trim`), gives a trimmed text (`trim_trim`), and gives nothing only for
white space (`visible?_eq_some`). Blanks around a text do not matter to it (`trim_blanks`).
-/

namespace PhpClass

open Text

namespace SpaceTable

variable {s : SpaceTable}

/-- Whether white space stands at the front of the text. -/
def starts (s : SpaceTable) : Text → Bool
  | [] => false
  | [b] => s.one b
  | [b, c] => s.one b || s.two b c
  | b :: c :: d :: _ => s.one b || s.two b c || s.three b c d

theorem drop_cons_one {b : UInt8} (h : s.one b = true) (t : Text) : s.drop (b :: t) = s.drop t := by
  match t with
  | [] => simp [drop, h]
  | [c] => simp [drop, h]
  | c :: d :: t => rw [drop, if_pos h]

theorem drop_of_starts_eq_false {t : Text} (h : s.starts t = false) : s.drop t = t := by
  match t with
  | [] => rfl
  | [b] => simp_all [starts, drop]
  | [b, c] => simp_all [starts, drop]
  | b :: c :: d :: t => simp_all [starts, drop]

theorem starts_drop (t : Text) : s.starts (s.drop t) = false := by
  fun_induction drop s t <;> simp_all [starts]

/-- White space at the front of a text stands at the front of each longer one. -/
theorem starts_append {t : Text} (h : s.starts t = true) (u : Text) : s.starts (t ++ u) = true := by
  match t, u with
  | [], _ => cases h
  | [b], [] => exact h
  | [b], [c] => simp_all [starts]
  | [b], c :: d :: u => simp_all [starts]
  | [b, c], [] => exact h
  | [b, c], d :: u => simp_all [starts]
  | b :: c :: d :: t, u => exact h

theorem exists_drop {p : UInt8 → Bool} (h₁ : ∀ b, s.one b = true → p b = true)
    (h₂ : ∀ b c, s.two b c = true → p b = true ∧ p c = true)
    (h₃ : ∀ b c d, s.three b c d = true → p b = true ∧ p c = true ∧ p d = true) (t : Text) :
    ∃ w, t = w ++ s.drop t ∧ Within p w := by
  fun_induction drop s t with
  | case1 => exact ⟨[], rfl, within_nil p⟩
  | case2 b h => exact ⟨[b], rfl, by simpa using h₁ b h⟩
  | case3 b h => exact ⟨[], rfl, within_nil p⟩
  | case4 b c h ih =>
    obtain ⟨w, hw, hp⟩ := ih
    exact ⟨b :: w, by rw [List.cons_append, ← hw], by simpa using ⟨h₁ b h, hp⟩⟩
  | case5 b c h h' => exact ⟨[b, c], rfl, by simpa using h₂ b c h'⟩
  | case6 b c h h' => exact ⟨[], rfl, within_nil p⟩
  | case7 b c d t h ih =>
    obtain ⟨w, hw, hp⟩ := ih
    exact ⟨b :: w, by rw [List.cons_append, ← hw], by simpa using ⟨h₁ b h, hp⟩⟩
  | case8 b c d t h h' ih =>
    obtain ⟨w, hw, hp⟩ := ih
    refine ⟨b :: c :: w, by rw [List.cons_append, List.cons_append, ← hw], ?_⟩
    simpa using ⟨(h₂ b c h').1, (h₂ b c h').2, hp⟩
  | case9 b c d t h h' h'' ih =>
    obtain ⟨w, hw, hp⟩ := ih
    refine ⟨b :: c :: d :: w, ?_, ?_⟩
    · rw [List.cons_append, List.cons_append, List.cons_append, ← hw]
    · simpa using ⟨(h₃ b c d h'').1, (h₃ b c d h'').2.1, (h₃ b c d h'').2.2, hp⟩
  | case10 b c d t => exact ⟨[], rfl, within_nil p⟩

/-! ## The two tables -/

/-- A byte of some white space character: a blank, a vertical tab, a form feed, or from 0x80 up. -/
def isPart (b : UInt8) : Bool := forward.one b || 0x80 ≤ b

theorem isPlain_of_isPart : ∀ b, isPart b = true → Byte.isPlain b = true :=
  Byte.forall_of_fin (by decide +kernel)

theorem isPart_of_one (b : UInt8) (h : forward.one b = true) : isPart b = true := by
  simp [isPart, h]

theorem isPart_of_two {b c : UInt8} (h : forward.two b c = true) : isPart b = true ∧ isPart c = true := by
  simp only [forward, Bool.and_eq_true, Bool.or_eq_true, beq_iff_eq] at h
  obtain ⟨rfl, rfl | rfl⟩ := h <;> decide

theorem isPart_of_three {b c d : UInt8} (h : forward.three b c d = true) :
    isPart b = true ∧ isPart c = true ∧ isPart d = true := by
  simp only [forward, Bool.and_eq_true, Bool.or_eq_true, beq_iff_eq, decide_eq_true_eq] at h
  rcases h with ((⟨⟨rfl, rfl⟩, rfl⟩ | ⟨⟨rfl, rfl⟩, hd⟩) | ⟨⟨rfl, rfl⟩, rfl⟩) | ⟨⟨rfl, rfl⟩, rfl⟩
  · decide
  · refine ⟨by decide, by decide, ?_⟩
    rcases hd with ((hd | rfl) | rfl) | rfl
    · simp [isPart, hd.1]
    · decide
    · decide
    · decide
  · decide
  · decide

theorem one_of_isBlank : ∀ b, Byte.isBlank b = true → forward.one b = true :=
  Byte.forall_of_fin (by decide +kernel)

/-- A blank is no byte of a longer white space character. -/
theorem two_three_of_isBlank {c : UInt8} (hc : Byte.isBlank c = true) (a b : UInt8) :
    (forward.two a c = false ∧ forward.three a c b = false ∧ forward.three a b c = false) ∧
      forward.two c a = false ∧ forward.three c a b = false := by
  have hlt : c < 0x80 := by
    have hall : ∀ b, Byte.isBlank b = true → b < 0x80 := Byte.forall_of_fin (by decide +kernel)
    exact hall c hc
  have hne : ∀ x : UInt8, 0x80 ≤ x → c ≠ x := by
    rintro x hx rfl
    exact absurd hlt (UInt8.not_lt.2 hx)
  have hle : (decide ((0x80 : UInt8) ≤ c)) = false := decide_eq_false (UInt8.not_le.2 hlt)
  simp [forward, hne, hle]

theorem starts_append_apart {c : UInt8} (h₂ : ∀ a, s.two a c = false)
    (h₃ : ∀ a b, s.three a c b = false ∧ s.three a b c = false) {t : Text} (h : s.starts t = false)
    (hne : t ≠ []) (u : Text) : s.starts (t ++ c :: u) = false := by
  match t, u with
  | [], _ => exact absurd rfl hne
  | [a], [] => simp_all [starts]
  | [a], b :: u => simp_all [starts]
  | [a, b], u => simp_all [starts]
  | a :: b :: d :: t, u => exact h

/-- White space that is met from the back is white space from the front. -/
theorem starts_reverse_of_drop_eq_nil {t : Text} (h : backward.drop t = []) (hne : t ≠ []) :
    forward.starts t.reverse = true := by
  fun_induction drop backward t with
  | case1 => exact absurd rfl hne
  | case2 b hb => exact hb
  | case3 => cases h
  | case4 b c hb ih =>
    have := ih h (by simp)
    simpa using starts_append this [b]
  | case5 b c hb hbc =>
    have hbc : forward.two c b = true := hbc
    simp [starts, hbc]
  | case6 => cases h
  | case7 b c d t hb ih =>
    have := ih h (by simp)
    simpa using starts_append this [b]
  | case8 b c d t hb hbc ih =>
    have := ih h (by simp)
    simpa using starts_append this [c, b]
  | case9 b c d t hb hbc hbcd ih =>
    by_cases ht : t = []
    · have hbcd : forward.three d c b = true := hbcd
      simp [ht, starts, hbcd]
    · simpa using starts_append (ih h ht) [d, c, b]
  | case10 => cases h

end SpaceTable

namespace Text

open SpaceTable

/-! ## Cutting off white space -/

theorem exists_trimStart (t : Text) : ∃ w, t = w ++ trimStart t ∧ Within isPart w :=
  exists_drop isPart_of_one (fun _ _ => isPart_of_two) (fun _ _ _ => isPart_of_three) t

theorem exists_trimEnd (t : Text) : ∃ w, t = trimEnd t ++ w ∧ Within isPart w := by
  obtain ⟨w, hw, hp⟩ := exists_drop (s := backward) (p := isPart) isPart_of_one
    (fun _ _ h => (isPart_of_two h).symm)
    (fun _ _ _ h => ⟨(isPart_of_three h).2.2, (isPart_of_three h).2.1, (isPart_of_three h).1⟩) t.reverse
  refine ⟨w.reverse, ?_, by simpa using hp⟩
  have := congrArg List.reverse hw
  simpa [trimEnd] using this

/-- Trimming cuts off bytes that no scanner of code takes notice of. -/
theorem exists_trim (t : Text) :
    ∃ w₁ w₂, t = w₁ ++ trim t ++ w₂ ∧ Within Byte.isPlain w₁ ∧ Within Byte.isPlain w₂ := by
  obtain ⟨w₁, h₁, hp₁⟩ := exists_trimStart t
  obtain ⟨w₂, h₂, hp₂⟩ := exists_trimEnd (trimStart t)
  refine ⟨w₁, w₂, ?_, hp₁.mono isPlain_of_isPart, hp₂.mono isPlain_of_isPart⟩
  rw [List.append_assoc, trim, ← h₂]
  exact h₁

theorem within_of_isSpace {t : Text} (h : isSpace t = true) : Within isPart t := by
  obtain ⟨w, ht, hw⟩ := exists_trimStart t
  have hnil : trimStart t = [] := by simpa [isSpace] using h
  rw [hnil, List.append_nil] at ht
  exact ht ▸ hw

theorem starts_trim (t : Text) : forward.starts (trim t) = false := by
  obtain ⟨w, hw, -⟩ := exists_trimEnd (trimStart t)
  have hs : forward.starts (trimStart t) = false := starts_drop t
  cases h : forward.starts (trim t) with
  | false => rfl
  | true =>
    have := starts_append h w
    rw [trim, ← hw, hs] at this
    cases this

theorem starts_reverse_trim (t : Text) : backward.starts (trim t).reverse = false := by
  simpa [trim, trimEnd] using starts_drop (s := backward) (trimStart t).reverse

/-- A trimmed text does not begin with a blank. -/
theorem apart_blank_of_trim {t : Text} (h : trim t = t) : Apart Byte.isBlank t := by
  cases t with
  | nil => exact apart_nil _
  | cons b u =>
    rw [apart_cons]
    cases hb : Byte.isBlank b with
    | false => rfl
    | true =>
      have hs := starts_trim (b :: u)
      rw [h] at hs
      have hstarts : forward.starts ([b] ++ u) = true := starts_append (t := [b]) (one_of_isBlank b hb) u
      rw [List.singleton_append, hs] at hstarts
      cases hstarts

theorem trim_eq_self {t : Text} (h₁ : forward.starts t = false)
    (h₂ : backward.starts t.reverse = false) : trim t = t := by
  rw [trim, trimStart, drop_of_starts_eq_false h₁, trimEnd, drop_of_starts_eq_false h₂,
    List.reverse_reverse]

theorem trim_trim (t : Text) : trim (trim t) = trim t :=
  trim_eq_self (starts_trim t) (starts_reverse_trim t)

theorem trim_eq_nil_iff {t : Text} : trim t = [] ↔ isSpace t = true := by
  unfold isSpace
  constructor
  · intro h
    rw [List.isEmpty_iff]
    by_cases hne : trimStart t = []
    · exact hne
    · have hdrop : backward.drop (trimStart t).reverse = [] := by simpa [trim, trimEnd] using h
      have hs := starts_reverse_of_drop_eq_nil hdrop (by simpa using hne)
      rw [List.reverse_reverse, trimStart, starts_drop] at hs
      cases hs
  · intro h
    rw [trim, List.isEmpty_iff.1 h]
    rfl

theorem visible?_eq_some {t v : Text} : visible? t = some v ↔ trim t = v ∧ v ≠ [] := by
  unfold visible?
  split
  · next h =>
    rw [trim_eq_nil_iff.2 h]
    simp [eq_comm]
  · next h =>
    rw [← trim_eq_nil_iff] at h
    constructor
    · rintro ⟨rfl⟩
      exact ⟨rfl, h⟩
    · rintro ⟨rfl, -⟩
      rfl

/-! ## Blanks around a text -/

theorem trimStart_blanks {w : Text} (hw : Within Byte.isBlank w) (t : Text) :
    trimStart (w ++ t) = trimStart t := by
  induction w with
  | nil => rfl
  | cons b w ih =>
    rw [List.cons_append, trimStart, drop_cons_one (one_of_isBlank b (hw b List.mem_cons_self))]
    exact ih fun x hx => hw x (List.mem_cons_of_mem _ hx)

theorem trimEnd_blanks {w : Text} (hw : Within Byte.isBlank w) (t : Text) :
    trimEnd (t ++ w) = trimEnd t := by
  unfold trimEnd
  rw [List.reverse_append]
  congr 1
  have hr : Within Byte.isBlank w.reverse := by simpa using hw
  generalize w.reverse = r at hr
  induction r with
  | nil => rfl
  | cons b r ih =>
    rw [List.cons_append, drop_cons_one (s := backward) (one_of_isBlank b (hr b List.mem_cons_self))]
    exact ih fun x hx => hr x (List.mem_cons_of_mem _ hx)

/-- A blank behind a text is no part of white space in it. -/
theorem trimStart_append_blank {c : UInt8} (hc : Byte.isBlank c = true) (t w : Text) :
    trimStart (t ++ c :: w) =
      if trimStart t = [] then trimStart (c :: w) else trimStart t ++ c :: w := by
  have h₂ : ∀ a, forward.two a c = false := fun a => (two_three_of_isBlank hc a a).1.1
  have h₃ : ∀ a b, forward.three a c b = false := fun a b => (two_three_of_isBlank hc a b).1.2.1
  have h₄ : ∀ a b, forward.three a b c = false := fun a b => (two_three_of_isBlank hc a b).1.2.2
  unfold trimStart
  fun_induction drop forward t with
  | case1 => rfl
  | case2 b hb => rw [List.singleton_append, drop_cons_one hb]; rfl
  | case3 b hb => cases w <;> simp [drop, hb, h₂, h₃]
  | case4 b d hb ih => rw [List.cons_append, drop_cons_one hb, ih]
  | case5 b d hb hbd => simp [drop, hb, hbd]
  | case6 b d hb hbd => simp [drop, hb, hbd, h₄]
  | case7 b d e t hb ih => rw [List.cons_append, drop_cons_one hb, ih]
  | case8 b d e t hb hbd ih => simpa [drop, hb, hbd] using ih
  | case9 b d e t hb hbd hbde ih => simpa [drop, hb, hbd, hbde] using ih
  | case10 b d e t hb hbd hbde => simp [drop, hb, hbd, hbde]

/-- Two trimmed texts with a blank between them are a trimmed text. -/
theorem trim_append_blank {c : UInt8} (hc : Byte.isBlank c = true) {t u : Text} (ht : trim t = t)
    (hu : trim u = u) (hnt : t ≠ []) (hnu : u ≠ []) : trim (t ++ c :: u) = t ++ c :: u := by
  have h := two_three_of_isBlank hc
  refine trim_eq_self ?_ ?_
  · have hs := starts_trim t
    rw [ht] at hs
    exact starts_append_apart (fun a => (h a a).1.1) (fun a b => ⟨(h a b).1.2.1, (h a b).1.2.2⟩) hs hnt u
  · have hs := starts_reverse_trim u
    rw [hu] at hs
    have := starts_append_apart (s := backward) (fun a => (h a a).2.1)
      (fun a b => ⟨(h b a).1.2.1, (h b a).2.2⟩) hs (by simpa using hnu) t.reverse
    simpa using this

/-- Blanks around a text do not matter to what is left when it is trimmed. -/
theorem trim_blanks {w₁ w₂ : Text} (h₁ : Within Byte.isBlank w₁) (h₂ : Within Byte.isBlank w₂)
    (t : Text) : trim (w₁ ++ t ++ w₂) = trim t := by
  rw [List.append_assoc, trim, trimStart_blanks h₁, trim]
  cases w₂ with
  | nil => rw [List.append_nil]
  | cons c w =>
    rw [trimStart_append_blank (h₂ c List.mem_cons_self)]
    split
    · next h =>
      rw [h]
      have : trimStart (c :: w) = [] := by simpa [trimStart, drop] using trimStart_blanks h₂ []
      rw [this]
    · exact trimEnd_blanks h₂ _

/-- A trimmed text between blanks is what is visible. -/
theorem visible?_blanks {w₁ t w₂ : Text} (h₁ : Within Byte.isBlank w₁) (ht : trim t = t)
    (hne : t ≠ []) (h₂ : Within Byte.isBlank w₂) : visible? (w₁ ++ t ++ w₂) = some t :=
  visible?_eq_some.2 ⟨(trim_blanks h₁ h₂ t).trans ht, hne⟩

/-! ## One line -/

theorem oneLine_eq_self {t : Text} (h : ∀ b ∈ t, Byte.isLineEnd b = false) : oneLine t = t := by
  unfold oneLine
  conv => rhs; rw [← List.map_id t]
  exact List.map_congr_left fun b hb => by simp [h b hb]

theorem isLineEnd_of_mem_oneLine {t : Text} : ∀ b ∈ oneLine t, Byte.isLineEnd b = false := by
  intro b hb
  obtain ⟨x, -, rfl⟩ := List.mem_map.1 hb
  by_cases hx : Byte.isLineEnd x = true
  · rw [if_pos hx]; decide
  · rw [if_neg hx]; simpa using hx

/-- Putting a text on one line does not change where its white space stands. -/
theorem starts_oneLine (t : Text) :
    forward.starts (oneLine t) = forward.starts t ∧ backward.starts (oneLine t) = backward.starts t := by
  have hline : ∀ b, Byte.isLineEnd b = true → Byte.isBlank b = true := Byte.isBlank_of_isLineEnd
  have hspace : Byte.isBlank Byte.space = true := by decide
  have one : ∀ b, forward.one (if Byte.isLineEnd b then Byte.space else b) = forward.one b := by
    intro b
    split
    · next h => rw [one_of_isBlank b (hline b h)]; decide
    · rfl
  have two : ∀ b c, forward.two (if Byte.isLineEnd b then Byte.space else b)
      (if Byte.isLineEnd c then Byte.space else c) = forward.two b c := by
    intro b c
    split
    · next h => rw [(two_three_of_isBlank hspace _ c).2.1, (two_three_of_isBlank (hline b h) c c).2.1]
    · split
      · next h =>
        rw [(two_three_of_isBlank hspace b b).1.1, (two_three_of_isBlank (hline c h) b b).1.1]
      · rfl
  have three : ∀ b c d, forward.three (if Byte.isLineEnd b then Byte.space else b)
      (if Byte.isLineEnd c then Byte.space else c) (if Byte.isLineEnd d then Byte.space else d) =
      forward.three b c d := by
    intro b c d
    split
    · next h => rw [(two_three_of_isBlank hspace _ _).2.2, (two_three_of_isBlank (hline b h) c d).2.2]
    · split
      · next h =>
        rw [(two_three_of_isBlank hspace b _).1.2.1, (two_three_of_isBlank (hline c h) b d).1.2.1]
      · split
        · next h =>
          rw [(two_three_of_isBlank hspace b c).1.2.2, (two_three_of_isBlank (hline d h) b c).1.2.2]
        · rfl
  match t with
  | [] => exact ⟨rfl, rfl⟩
  | [b] => simp only [oneLine, List.map_cons, List.map_nil, starts, backward, one, and_self]
  | [b, c] =>
    simp only [oneLine, List.map_cons, List.map_nil, starts, backward, one, two, and_self]
  | b :: c :: d :: t =>
    simp only [oneLine, List.map_cons, starts, backward, one, two, three, and_self]

theorem trim_oneLine {t : Text} (h : trim t = t) : trim (oneLine t) = oneLine t := by
  have h₁ := starts_trim t
  have h₂ := starts_reverse_trim t
  rw [h] at h₁ h₂
  refine trim_eq_self ?_ ?_
  · rw [(starts_oneLine t).1, h₁]
  · have hr : (oneLine t).reverse = oneLine t.reverse := by simp [oneLine]
    rw [hr, (starts_oneLine t.reverse).2, h₂]

end Text

end PhpClass
