import PhpClass.Grammar.Member

/-!
# What the readers of words read

Two kinds of lemmas on keywords, identifiers, names, types and modifiers.

* What was read: the text is the word followed by the rest, the word consists of bytes of its class, and
  the rest does not go on with them (`keyword?_eq_some`, `ident_eq`, `name_eq`, `type_eq`).
* What was looked at: a byte that belongs to no word (`Byte.isStop`) decides nothing but that the words
  in front of it are over. So what stands behind such a byte does not matter (`type_append_stop`).
-/

namespace PhpClass

namespace Byte

/-- A property of bytes holds if it holds of each of the 256 bytes. -/
theorem forall_of_fin {p : UInt8 → Prop} (h : ∀ n : Fin 256, p (UInt8.ofBitVec (BitVec.ofFin n)))
    (b : UInt8) : p b :=
  h b.toFin

/-- A byte that no head of a member holds: neither a blank nor a part of a keyword, a type or a `$`. -/
def isStop (b : UInt8) : Bool := !(isBlank b || isType b || b == ascii '&' || b == ascii '$')

/-- A byte that no scanner of code takes notice of: no quote, slash, bracket, comma or semicolon. -/
def isPlain (b : UInt8) : Bool :=
  !(isQuote b || b == ascii '/' || isOpener b || isCloser b || b == ascii ',' || b == ascii ';')

theorem isType_of_isIdent (b : UInt8) (h : isIdent b = true) : isType b = true := by simp [isType, h]

theorem isIdent_of_isType_eq_false (b : UInt8) (h : isType b = false) : isIdent b = false :=
  Bool.eq_false_iff.2 fun hb => Bool.false_ne_true (h.symm.trans (isType_of_isIdent b hb))

theorem isType_of_isBlank : ∀ b, isBlank b = true → isType b = false :=
  forall_of_fin (by decide +kernel)

theorem isIdent_of_isBlank (b : UInt8) (h : isBlank b = true) : isIdent b = false :=
  isIdent_of_isType_eq_false b (isType_of_isBlank b h)

theorem isBlank_of_isIdent (b : UInt8) (h : isIdent b = true) : isBlank b = false :=
  Bool.eq_false_iff.2 fun hb => Bool.false_ne_true ((isIdent_of_isBlank b hb).symm.trans h)

theorem isBlank_of_isGap (b : UInt8) (h : isGap b = true) : isBlank b = true := by simp [isBlank, h]

theorem isBlank_of_isLineEnd (b : UInt8) (h : isLineEnd b = true) : isBlank b = true := by simp [isBlank, h]

theorem isLineEnd_spec : ∀ b, isLineEnd b = true → isGap b = false ∧ b ≠ ascii '/' :=
  forall_of_fin (by decide +kernel)

theorem isPlain_of_isType : ∀ b, isType b = true → isPlain b = true :=
  forall_of_fin (by decide +kernel)

theorem isPlain_of_isIdent (b : UInt8) (h : isIdent b = true) : isPlain b = true :=
  isPlain_of_isType b (isType_of_isIdent b h)

theorem isPlain_of_isBlank : ∀ b, isBlank b = true → isPlain b = true :=
  forall_of_fin (by decide +kernel)

/-- A stop byte ends every word that can stand in front of it. -/
theorem isStop_spec (b : UInt8) (h : isStop b = true) :
    isBlank b = false ∧ isType b = false ∧ isIdent b = false ∧ b ≠ ascii '&' ∧ b ≠ ascii '$' := by
  simp only [isStop, Bool.not_eq_true', Bool.or_eq_false_iff, beq_eq_false_iff_ne] at h
  obtain ⟨⟨⟨hblank, htype⟩, hand⟩, hdollar⟩ := h
  exact ⟨hblank, htype, isIdent_of_isType_eq_false b htype, hand, hdollar⟩

end Byte

namespace Text

/-- The text does not begin with a byte of the class. -/
def Apart (p : UInt8 → Bool) (t : Text) : Prop := ∀ b ∈ t.head?, p b = false

@[simp] theorem apart_nil (p : UInt8 → Bool) : Apart p [] := by simp [Apart]

@[simp] theorem apart_cons {p : UInt8 → Bool} {b : UInt8} {t : Text} :
    Apart p (b :: t) ↔ p b = false := by simp [Apart]

theorem Apart.append {p : UInt8 → Bool} {s t : Text} (hs : Apart p s) (hne : s ≠ []) :
    Apart p (s ++ t) := by
  cases s with
  | nil => exact absurd rfl hne
  | cons b s => simpa using hs

/-- Bytes of the class, one after the other. -/
def Within (p : UInt8 → Bool) (t : Text) : Prop := ∀ b ∈ t, p b = true

instance (p : UInt8 → Bool) (t : Text) : Decidable (Within p t) :=
  List.decidableBAll (p · = true) t

@[simp] theorem within_nil (p : UInt8 → Bool) : Within p [] := by simp [Within]

@[simp] theorem within_cons {p : UInt8 → Bool} {b : UInt8} {t : Text} :
    Within p (b :: t) ↔ p b = true ∧ Within p t := by simp [Within]

@[simp] theorem within_append {p : UInt8 → Bool} {s t : Text} :
    Within p (s ++ t) ↔ Within p s ∧ Within p t := by
  simp [Within, or_imp, forall_and]

@[simp] theorem within_reverse {p : UInt8 → Bool} {t : Text} : Within p t.reverse ↔ Within p t := by
  simp [Within]

theorem Within.mono {p q : UInt8 → Bool} {t : Text} (h : Within p t)
    (hpq : ∀ b, p b = true → q b = true) : Within q t := fun b hb => hpq b (h b hb)

/-! ## Runs of a class -/

theorem isBlank_space : Within Byte.isBlank [Byte.space] := by decide

theorem isGap_space : Within Byte.isGap [Byte.space] := by decide

/-- Blanks, at least one. -/
def IsBlanks (w : Text) : Prop := w ≠ [] ∧ Within Byte.isBlank w

theorem isBlanks_space : IsBlanks [Byte.space] := ⟨by decide, by decide⟩

/-- Behind a word that blanks follow the word does not go on. -/
theorem IsBlanks.apart {w : Text} (h : IsBlanks w) (t : Text) : Apart Byte.isIdent (w ++ t) := by
  obtain ⟨hne, hw⟩ := h
  cases w with
  | nil => exact absurd rfl hne
  | cons b w => exact apart_cons.2 (Byte.isIdent_of_isBlank b (hw b List.mem_cons_self))

/-- Behind a word that goes on with nothing blanks change nothing. -/
theorem apart_blanks {w t : Text} (hw : Within Byte.isBlank w) (ht : Apart Byte.isIdent t) :
    Apart Byte.isIdent (w ++ t) := by
  by_cases hne : w = []
  · rwa [hne, List.nil_append]
  · exact IsBlanks.apart ⟨hne, hw⟩ t

theorem dropWhile_of_apart {p : UInt8 → Bool} {t : Text} (h : Apart p t) : t.dropWhile p = t := by
  cases t with
  | nil => rfl
  | cons b t => rw [List.dropWhile_cons, if_neg (by simpa using h)]

theorem dropWhile_append {p : UInt8 → Bool} {s t : Text} (hs : Within p s) (ht : Apart p t) :
    (s ++ t).dropWhile p = t := by
  rw [List.dropWhile_append_of_pos hs, dropWhile_of_apart ht]

theorem apart_dropWhile (p : UInt8 → Bool) (t : Text) : Apart p (t.dropWhile p) := by
  induction t with
  | nil => simp
  | cons b t ih =>
    rw [List.dropWhile_cons]
    split
    · exact ih
    · next hb => simpa using hb

theorem within_takeWhile (p : UInt8 → Bool) (t : Text) : Within p (t.takeWhile p) := by
  intro b hb
  exact List.all_eq_true.1 (List.all_takeWhile (p := p) (l := t)) b hb

/-- A run of the class and the rest, from which nothing of the class can be taken. -/
theorem exists_run (p : UInt8 → Bool) (t : Text) :
    ∃ s, t = s ++ t.dropWhile p ∧ Within p s ∧ Apart p (t.dropWhile p) :=
  ⟨t.takeWhile p, List.takeWhile_append_dropWhile.symm, within_takeWhile p t, apart_dropWhile p t⟩

theorem splitWhile_append {p : UInt8 → Bool} {s t : Text} (hs : Within p s) (ht : Apart p t) :
    splitWhile p (s ++ t) = (s, t) := by
  unfold splitWhile
  rw [dropWhile_append hs ht, List.takeWhile_append_of_pos hs]
  cases t with
  | nil => simp
  | cons b t => rw [List.takeWhile_cons, if_neg (by simpa using ht), List.append_nil]

theorem splitWhile_eq {p : UInt8 → Bool} {t s rest : Text} (h : splitWhile p t = (s, rest)) :
    t = s ++ rest ∧ Within p s ∧ Apart p rest := by
  unfold splitWhile at h
  cases h
  exact ⟨List.takeWhile_append_dropWhile.symm, within_takeWhile p t, apart_dropWhile p t⟩

theorem dropWhile_append_stop {p : UInt8 → Bool} {c : UInt8} (hc : p c = false) (s rest : Text) :
    (s ++ c :: rest).dropWhile p = s.dropWhile p ++ c :: rest := by
  induction s with
  | nil => rw [List.nil_append, List.dropWhile_cons, if_neg (by simp [hc])]; rfl
  | cons b s ih =>
    rw [List.cons_append, List.dropWhile_cons, List.dropWhile_cons]
    split
    · exact ih
    · rfl

/-! ## Keywords -/

theorem after?_append_stop {front : Text} {c : UInt8} (hc : c ∉ front) (s rest : Text) :
    after? front (s ++ c :: rest) = (after? front s).map (· ++ c :: rest) := by
  induction front generalizing s with
  | nil => simp [after?]
  | cons a front ih =>
    have ha : a ≠ c := fun h => hc (h ▸ List.mem_cons_self)
    cases s with
    | nil => simp [after?, ha]
    | cons b s =>
      rw [List.cons_append, after?, after?]
      split
      · exact ih (fun h => hc (List.mem_cons_of_mem _ h)) s
      · rfl

theorem keyword?_eq_some {word t rest : Text} :
    keyword? word t = some rest ↔ t = word ++ rest ∧ Apart Byte.isIdent rest := by
  constructor
  · intro h
    refine ⟨keyword?_eq_append h, ?_⟩
    unfold keyword? at h
    split at h
    · cases h; simp
    · split at h
      · cases h
      · next hb => cases h; simpa using hb
    · cases h
  · rintro ⟨rfl, hr⟩
    unfold keyword?
    rw [after?_append]
    cases rest with
    | nil => rfl
    | cons b rest => simp only [apart_cons] at hr; simp [hr]

theorem keyword?_space {word : Text} (rest : Text) :
    keyword? word (word ++ Byte.space :: rest) = some (Byte.space :: rest) :=
  keyword?_eq_some.2 ⟨rfl, apart_cons.2 (by decide)⟩

/-- A keyword is not found where a different word stands. -/
theorem keyword?_eq_none_of_ne {word other rest : Text} (hword : Within Byte.isIdent word)
    (hother : Within Byte.isIdent other) (hrest : Apart Byte.isIdent rest) (hne : word ≠ other) :
    keyword? word (other ++ rest) = none := by
  rw [Option.eq_none_iff_forall_ne_some]
  intro r h
  obtain ⟨he, hr⟩ := keyword?_eq_some.1 h
  have hw := splitWhile_append hword hr
  rw [← he, splitWhile_append hother hrest] at hw
  exact hne (congrArg Prod.fst hw).symm

/-- A keyword is not found in front of a byte that no keyword holds. -/
theorem keyword?_eq_none_of_apart {word t : Text} (hne : word ≠ []) (hword : Within Byte.isIdent word)
    (ht : Apart Byte.isIdent t) : keyword? word t = none := by
  rw [Option.eq_none_iff_forall_ne_some]
  intro r h
  obtain ⟨rfl, -⟩ := keyword?_eq_some.1 h
  cases word with
  | nil => exact hne rfl
  | cons b word =>
    have := hword b List.mem_cons_self
    simp only [List.cons_append, apart_cons] at ht
    rw [this] at ht
    cases ht

theorem keyword?_append_stop {word : Text} {c : UInt8} (hword : Within Byte.isIdent word)
    (hc : Byte.isIdent c = false) (s rest : Text) :
    keyword? word (s ++ c :: rest) = (keyword? word s).map (· ++ c :: rest) := by
  have hmem : c ∉ word := fun h => by simp [hword c h] at hc
  unfold keyword?
  rw [after?_append_stop hmem]
  cases after? word s with
  | none => rfl
  | some r =>
    cases r with
    | nil => simp [hc]
    | cons b r =>
      simp only [Option.map_some, List.cons_append]
      split <;> rfl

/-- Whether a keyword is found at the front of a word and what follows it does not depend on what that
is, as long as it does not go on with the word. -/
theorem keyword?_isSome_append {word s a b : Text} (hword : Within Byte.isIdent word)
    (ha : Apart Byte.isIdent a) (hb : Apart Byte.isIdent b)
    (h : (keyword? word (s ++ a)).isSome = true) : (keyword? word (s ++ b)).isSome = true := by
  obtain ⟨r, hr⟩ := Option.isSome_iff_exists.1 h
  obtain ⟨he, hap⟩ := keyword?_eq_some.1 hr
  rcases List.append_eq_append_iff.1 he with ⟨w, rfl, rfl⟩ | ⟨w, rfl, rfl⟩
  · have hw : w = [] := by
      cases w with
      | nil => rfl
      | cons x w =>
        have hx := hword x (by simp)
        simp [hx] at ha
    subst hw
    rw [List.append_nil, keyword?_eq_some.2 ⟨rfl, hb⟩]
    rfl
  · rw [List.append_assoc, keyword?_eq_some.2 ⟨rfl, ?_⟩]
    · rfl
    · cases w with
      | nil => exact hb
      | cons x w => simpa using hap

/-- A word that a text does not begin with in front of a space does not stand there either way. -/
theorem keyword?_eq_none_append {word s rest : Text} (hword : Within Byte.isIdent word)
    (h : keyword? word (s ++ [Byte.space]) = none) (hrest : Apart Byte.isIdent rest) :
    keyword? word (s ++ rest) = none := by
  rw [← Option.not_isSome_iff_eq_none] at h ⊢
  intro hsome
  exact h (keyword?_isSome_append hword hrest (apart_cons.2 (by decide)) hsome)

/-! ## Identifiers and names -/

/-- A text that is one identifier. -/
def IsIdent (w : Text) : Prop := w ≠ [] ∧ ident w = (w, [])

instance (w : Text) : Decidable (IsIdent w) := inferInstanceAs (Decidable (w ≠ [] ∧ ident w = (w, [])))

/-- A text that is one possibly qualified name. -/
def IsName (w : Text) : Prop := w ≠ [] ∧ Within Byte.isName w

instance (w : Text) : Decidable (IsName w) := inferInstanceAs (Decidable (w ≠ [] ∧ Within Byte.isName w))

theorem ident_eq {t w rest : Text} (h : ident t = (w, rest)) (hne : w ≠ []) :
    t = w ++ rest ∧ Within Byte.isIdent w ∧ Apart Byte.isDigit w ∧ Apart Byte.isIdent rest := by
  unfold ident at h
  split at h
  · cases h; exact absurd rfl hne
  · next hd =>
    obtain ⟨rfl, hw, hr⟩ := splitWhile_eq h
    refine ⟨rfl, hw, ?_, hr⟩
    cases w with
    | nil => exact absurd rfl hne
    | cons b w => simpa using hd

theorem isIdent_iff {w : Text} :
    IsIdent w ↔ w ≠ [] ∧ Within Byte.isIdent w ∧ Apart Byte.isDigit w := by
  constructor
  · rintro ⟨hne, h⟩
    obtain ⟨-, hw, hd, -⟩ := ident_eq h hne
    exact ⟨hne, hw, hd⟩
  · rintro ⟨hne, hw, hd⟩
    refine ⟨hne, ?_⟩
    unfold ident
    rw [if_neg]
    · simpa using splitWhile_append (t := []) hw (apart_nil _)
    · cases w with
      | nil => exact absurd rfl hne
      | cons b w => simpa using hd

theorem IsIdent.within {w : Text} (h : IsIdent w) : Within Byte.isIdent w := (isIdent_iff.1 h).2.1

theorem IsIdent.apart_blank {w : Text} (h : IsIdent w) : Apart Byte.isBlank w := by
  obtain ⟨hne, hw, -⟩ := isIdent_iff.1 h
  cases w with
  | nil => exact absurd rfl hne
  | cons b w => simpa using Byte.isBlank_of_isIdent b (hw b List.mem_cons_self)

theorem ident_append {w rest : Text} (hw : IsIdent w) (hr : Apart Byte.isIdent rest) :
    ident (w ++ rest) = (w, rest) := by
  obtain ⟨hne, hw, hd⟩ := isIdent_iff.1 hw
  unfold ident
  rw [if_neg, splitWhile_append hw hr]
  cases w with
  | nil => exact absurd rfl hne
  | cons b w => simpa using hd

theorem name_append {w rest : Text} (hw : Within Byte.isName w) (hr : Apart Byte.isName rest) :
    name (w ++ rest) = (w, rest) := splitWhile_append hw hr

theorem name_eq {t w rest : Text} (h : name t = (w, rest)) :
    t = w ++ rest ∧ Within Byte.isName w ∧ Apart Byte.isName rest := splitWhile_eq h

/-! ## Types -/

/-- A text that is read whole as a type when a space follows it. -/
def IsType (ty : Text) : Prop := type (ty ++ [Byte.space]) = (ty, [Byte.space])

instance (ty : Text) : Decidable (IsType ty) :=
  inferInstanceAs (Decidable (type (ty ++ [Byte.space]) = (ty, [Byte.space])))

theorem afterType_append_stop {c : UInt8} (hc : Byte.isType c = false) (hand : c ≠ ascii '&')
    (s rest : Text) : afterType (s ++ c :: rest) = afterType s ++ c :: rest := by
  have hi := Byte.isIdent_of_isType_eq_false c hc
  induction s with
  | nil => simp [afterType, hc, hand]
  | cons b s ih =>
    have hhead : (s ++ c :: rest).head?.any Byte.isIdent = s.head?.any Byte.isIdent := by
      cases s with
      | nil => simp [hi]
      | cons x s => rfl
    rw [List.cons_append, afterType, afterType, hhead, ih]
    split
    · rfl
    · split <;> rfl

theorem type_append_stop {c : UInt8} (hc : Byte.isType c = false) (hand : c ≠ ascii '&')
    (s rest : Text) : type (s ++ c :: rest) = ((type s).1, (type s).2 ++ c :: rest) := by
  obtain ⟨read, hs⟩ := afterType_suffix s
  unfold type
  rw [afterType_append_stop hc hand]
  generalize afterType s = r at hs
  subst hs
  rw [List.append_assoc, upTo_append, upTo_append]

theorem isType_iff {ty : Text} : IsType ty ↔ afterType ty = [] := by
  unfold IsType
  rw [type_append_stop (by decide) (by decide)]
  unfold type
  constructor
  · intro h
    simpa using congrArg Prod.snd h
  · intro h
    simp [h, upTo]

theorem afterType_append {ty : Text} (h : afterType ty = []) (rest : Text) :
    afterType (ty ++ rest) = afterType rest := by
  induction ty with
  | nil => rfl
  | cons b ty ih =>
    rw [afterType] at h
    rw [List.cons_append, afterType]
    split at h
    · next hb => rw [if_pos hb, ih h]
    · next hb =>
      split at h
      · next hand =>
        -- Behind an `&` the type goes on, so the byte behind it is one of its own.
        obtain ⟨x, ty, rfl⟩ : ∃ x u, ty = x :: u := by
          cases ty with
          | nil => simp at hand
          | cons x u => exact ⟨x, u, rfl⟩
        rw [if_neg hb, if_pos (by simpa using hand), ih h]
      · cases h

/-- A type is read up to a text with which no type goes on. -/
theorem type_append_end {ty rest : Text} (hty : IsType ty) (hrest : afterType rest = rest) :
    type (ty ++ rest) = (ty, rest) := by
  unfold type
  rw [afterType_append (isType_iff.1 hty), hrest, upTo_append]

theorem afterType_cons {c : UInt8} (hc : Byte.isType c = false) (hand : c ≠ ascii '&') (rest : Text) :
    afterType (c :: rest) = c :: rest := by
  simp [afterType, hc, hand]

/-- An `&` belongs to a type in front of a name only. -/
theorem afterType_and {rest : Text} (h : Apart Byte.isIdent rest) : afterType (ascii '&' :: rest) = ascii '&' :: rest := by
  have hhead : rest.head?.any Byte.isIdent = false := by
    cases rest with
    | nil => rfl
    | cons b rest => simpa using h
  rw [afterType, hhead]
  rfl

theorem type_append {ty rest : Text} {c : UInt8} (hty : IsType ty) (hc : Byte.isType c = false)
    (hand : c ≠ ascii '&') : type (ty ++ c :: rest) = (ty, c :: rest) :=
  type_append_end hty (afterType_cons hc hand rest)

theorem IsBlanks.afterType {w : Text} (h : IsBlanks w) (rest : Text) : afterType (w ++ rest) = w ++ rest := by
  obtain ⟨hne, hw⟩ := h
  obtain ⟨b, w, rfl⟩ := List.exists_cons_of_ne_nil hne
  have hb := hw b List.mem_cons_self
  have hand : b ≠ ascii '&' := by
    rintro rfl
    revert hb
    decide
  exact afterType_cons (Byte.isType_of_isBlank b hb) hand _

theorem exists_type (t : Text) :
    ∃ ty, t = ty ++ afterType t ∧ afterType ty = [] ∧ Apart Byte.isType (afterType t) := by
  induction t with
  | nil => exact ⟨[], rfl, rfl, by simp [afterType]⟩
  | cons b t ih =>
    obtain ⟨ty, ht, hty, hap⟩ := ih
    by_cases hb : Byte.isType b = true
    · refine ⟨b :: ty, ?_, ?_, ?_⟩ <;> rw [afterType, if_pos hb]
      · rw [List.cons_append, ← ht]
      · exact hty
      · exact hap
    · by_cases hand : (decide (b = ascii '&') && t.head?.any Byte.isIdent) = true
      · refine ⟨b :: ty, ?_, ?_, ?_⟩
        · rw [afterType, if_neg hb, if_pos (by simpa using hand), List.cons_append, ← ht]
        · -- The byte behind the `&` is read with the type, so the type itself goes on with it.
          have hhead : ty.head? = t.head? := by
            cases ty with
            | nil =>
              rw [List.nil_append] at ht
              rw [← ht] at hap
              cases t with
              | nil => rfl
              | cons x t =>
                simp only [List.head?_cons, Option.any_some, Bool.and_eq_true] at hand
                simp [Byte.isType_of_isIdent x hand.2] at hap
            | cons x ty => rw [ht]; rfl
          rw [afterType, if_neg hb, hhead, if_pos (by simpa using hand)]
          exact hty
        · rw [afterType, if_neg hb, if_pos (by simpa using hand)]
          exact hap
      · refine ⟨[], ?_, rfl, ?_⟩ <;> rw [afterType, if_neg hb, if_neg (by simpa using hand)]
        · rfl
        · simpa using hb

theorem type_eq {t ty rest : Text} (h : type t = (ty, rest)) :
    t = ty ++ rest ∧ IsType ty ∧ Apart Byte.isType rest := by
  obtain ⟨read, ht, hty, hap⟩ := exists_type t
  unfold type at h
  cases h
  generalize afterType t = r at ht hap
  subst ht
  rw [upTo_append]
  exact ⟨rfl, isType_iff.2 hty, hap⟩

/-- A word of identifier bytes is a type. -/
theorem isType_of_within {w : Text} (h : Within Byte.isIdent w) : IsType w := by
  rw [isType_iff]
  induction w with
  | nil => rfl
  | cons b w ih =>
    rw [afterType, if_pos (Byte.isType_of_isIdent b (h b List.mem_cons_self))]
    exact ih fun x hx => h x (List.mem_cons_of_mem _ hx)

end Text

end PhpClass
