import PhpClass.Proofs.Word
import PhpClass.Scan.Offset
import PhpClass.Text.Utf8

/-!
# Places between characters

A UTF-8 text can be cut next to any ASCII byte, since a byte of a longer character is none
(`isUtf8_append_ascii`). What is ahead of a place in a text is UTF-8 exactly if the place lies between two
characters (`isBoundary_offsetOf`, `isUtf8_drop`); `Ahead` says so of a rest of the text.
-/

namespace PhpClass

namespace Text

/-! ## First bytes -/

/-- What a first byte asks for: the number of continuations, and the range of the first of them. -/
def lead? (b : UInt8) : Option (Nat × UInt8 × UInt8) :=
  if b < 0x80 then some (0, 0x80, 0xBF)
  else if 0xC2 ≤ b && b ≤ 0xDF then some (1, 0x80, 0xBF)
  else if b == 0xE0 then some (2, 0xA0, 0xBF)
  else if b == 0xED then some (2, 0x80, 0x9F)
  else if 0xE1 ≤ b && b ≤ 0xEF then some (2, 0x80, 0xBF)
  else if b == 0xF0 then some (3, 0x90, 0xBF)
  else if 0xF1 ≤ b && b ≤ 0xF3 then some (3, 0x80, 0xBF)
  else if b == 0xF4 then some (3, 0x80, 0x8F)
  else none

theorem isUtf8From_zero_cons (low high b : UInt8) (t : Text) : isUtf8From 0 low high (b :: t) =
    match lead? b with
    | some (more, low, high) => isUtf8From more low high t
    | none => false := by
  rw [isUtf8From, lead?]
  repeat' split
  all_goals first | rfl | simp_all

theorem lead?_spec : ∀ b, ∀ l ∈ lead? b, 0x80 ≤ l.2.1 ∧ l.2.2 ≤ 0xBF ∧ isContinuation b = false :=
  Byte.forall_of_fin (by decide +kernel)

theorem lead?_ascii : ∀ b : UInt8, b < 0x80 → lead? b = some (0, 0x80, 0xBF) :=
  Byte.forall_of_fin (by decide +kernel)

theorem isUtf8From_zero (low high : UInt8) (t : Text) : isUtf8From 0 low high t = isUtf8 t := by
  unfold isUtf8
  cases t with
  | nil => rfl
  | cons b t => rw [isUtf8From_zero_cons, isUtf8From_zero_cons]

/-! ## Cutting next to an ASCII byte -/

/-- What comes behind whole characters. -/
theorem isUtf8From_append {more : Nat} {low high : UInt8} {p : Text} (hp : isUtf8From more low high p = true)
    (r : Text) : isUtf8From more low high (p ++ r) = isUtf8 r := by
  induction p generalizing more low high with
  | nil =>
    cases more with
    | zero => exact isUtf8From_zero low high r
    | succ more => cases hp
  | cons b p ih =>
    cases more with
    | zero =>
      rw [isUtf8From_zero_cons] at hp
      rw [List.cons_append, isUtf8From_zero_cons]
      split at hp
      · exact ih hp
      · cases hp
    | succ more =>
      rw [isUtf8From, Bool.and_eq_true, Bool.and_eq_true] at hp
      rw [List.cons_append, isUtf8From, ih hp.2]
      simp [hp.1.1, hp.1.2]

theorem isUtf8_append {p : Text} (hp : isUtf8 p = true) (r : Text) : isUtf8 (p ++ r) = isUtf8 r :=
  isUtf8From_append hp r

/-- An ASCII byte is a character of its own. -/
theorem isUtf8From_append_ascii {more : Nat} {low high b : UInt8} (hlow : 0x80 ≤ low) (hb : b < 0x80) (p r : Text) :
    isUtf8From more low high (p ++ b :: r) = (isUtf8From more low high p && isUtf8 r) := by
  induction p generalizing more low high with
  | nil =>
    cases more with
    | zero =>
      rw [List.nil_append, isUtf8From_zero_cons, lead?_ascii b hb]
      rfl
    | succ more =>
      have hlt : ¬low ≤ b := fun h => absurd hb (UInt8.not_lt.2 (UInt8.le_trans hlow h))
      simp [isUtf8From, hlt]
  | cons c p ih =>
    cases more with
    | zero =>
      rw [List.cons_append, isUtf8From_zero_cons, isUtf8From_zero_cons]
      split
      · next more low high hlead => exact ih (lead?_spec c _ hlead).1
      · rfl
    | succ more =>
      rw [List.cons_append, isUtf8From, isUtf8From, ih (by decide)]
      simp only [Bool.and_assoc]

theorem isUtf8_append_ascii {b : UInt8} (hb : b < 0x80) (p r : Text) :
    isUtf8 (p ++ b :: r) = (isUtf8 p && isUtf8 r) :=
  isUtf8From_append_ascii (by decide) hb p r

theorem isUtf8_cons_ascii {b : UInt8} (hb : b < 0x80) (r : Text) : isUtf8 (b :: r) = isUtf8 r := by
  rw [← List.nil_append (b :: r), isUtf8_append_ascii hb]
  rfl

/-- The ASCII byte in front of a rest, or at its beginning, is a place to cut. -/
theorem isUtf8_of_ascii_suffix {b : UInt8} (hb : b < 0x80) {t rest : Text} (ht : isUtf8 t = true)
    (h : b :: rest <:+ t) : isUtf8 rest = true := by
  obtain ⟨p, rfl⟩ := h
  rw [isUtf8_append_ascii hb, Bool.and_eq_true] at ht
  exact ht.2

/-! ## Places -/

theorem not_isContinuation {b : UInt8} {t : Text} (h : isUtf8 (b :: t) = true) : isContinuation b = false := by
  rw [isUtf8, isUtf8From_zero_cons] at h
  split at h
  · next hlead => exact (lead?_spec b _ hlead).2.2
  · cases h

theorem isUtf8From_split {more : Nat} {low high : UInt8} {p r : Text} (hlow : 0x80 ≤ low) (hhigh : high ≤ 0xBF)
    (h : isUtf8From more low high (p ++ r) = true) (hr : ∀ b ∈ r.head?, isContinuation b = false) :
    isUtf8From more low high p = true ∧ isUtf8 r = true := by
  induction p generalizing more low high with
  | nil =>
    cases more with
    | zero => exact ⟨rfl, (isUtf8From_zero low high r).symm.trans h⟩
    | succ more =>
      cases r with
      | nil => cases h
      | cons b r =>
        rw [List.nil_append, isUtf8From, Bool.and_eq_true, Bool.and_eq_true, decide_eq_true_eq,
          decide_eq_true_eq] at h
        have hcontinuation : isContinuation b = true := by
          simp [isContinuation, UInt8.le_trans hlow h.1.1, UInt8.le_trans h.1.2 hhigh]
        rw [hr b rfl] at hcontinuation
        cases hcontinuation
  | cons c p ih =>
    cases more with
    | zero =>
      rw [List.cons_append, isUtf8From_zero_cons] at h
      rw [isUtf8From_zero_cons]
      split at h
      · next hlead =>
        obtain ⟨hlow, hhigh, -⟩ := lead?_spec c _ hlead
        exact ih hlow hhigh h
      · cases h
    | succ more =>
      rw [List.cons_append, isUtf8From, Bool.and_eq_true] at h
      rw [isUtf8From, h.1, Bool.true_and]
      exact ih (by decide) (by decide) h.2

theorem isBoundary_append (p r : Text) :
    isBoundary (p ++ r) p.length = true ↔ p = [] ∨ ∀ b ∈ r.head?, isContinuation b = false := by
  unfold isBoundary
  cases r with
  | nil => simp
  | cons b r => simp

/-- On both sides of a place between characters stand whole characters. -/
theorem isUtf8_of_boundary {source : Text} (h : isUtf8 source = true) {offset : Nat} (hle : offset ≤ source.length)
    (hb : isBoundary source offset = true) :
    isUtf8 (source.take offset) = true ∧ isUtf8 (source.drop offset) = true := by
  have hlength : (source.take offset).length = offset := List.length_take_of_le hle
  have hsplit := isBoundary_append (source.take offset) (source.drop offset)
  rw [List.take_append_drop, hlength] at hsplit
  rcases hsplit.1 hb with hempty | hhead
  · rw [hempty] at hlength
    subst hlength
    exact ⟨rfl, h⟩
  · refine isUtf8From_split (by decide) (by decide) ?_ hhead
    rw [List.take_append_drop]
    exact h

/-- A rest of a text that lies ahead of a place between two characters. -/
structure Ahead (source rest : Text) : Prop where
  suffix : rest <:+ source
  utf8 : isUtf8 rest = true

namespace Ahead

variable {source v w : Text}

theorem refl {t : Text} (h : isUtf8 t = true) : Ahead t t := ⟨List.suffix_rfl, h⟩

theorem trans (hv : Ahead source v) (hw : Ahead v w) : Ahead source w := ⟨hw.suffix.trans hv.suffix, hw.utf8⟩

theorem of_boundary {offset : Nat} (h : isUtf8 source = true) (hle : offset ≤ source.length)
    (hb : isBoundary source offset = true) : Ahead source (source.drop offset) :=
  ⟨List.drop_suffix offset source, (isUtf8_of_boundary h hle hb).2⟩

theorem offsetOf_le (source v : Text) : Scan.offsetOf source v ≤ source.length := Nat.sub_le _ _

theorem head (h : Ahead source v) : ∀ b ∈ v.head?, isContinuation b = false := by
  intro b hb
  cases v with
  | nil => cases hb
  | cons c v =>
    cases hb
    exact not_isContinuation h.utf8

/-- The place lies between two characters. -/
theorem isBoundary (h : Ahead source v) : Text.isBoundary source (Scan.offsetOf source v) = true := by
  obtain ⟨p, rfl⟩ := h.suffix
  have hoffset : Scan.offsetOf (p ++ v) v = p.length := by simp [Scan.offsetOf]
  rw [hoffset, isBoundary_append]
  exact .inr h.head

theorem isUtf8_upTo (hsource : isUtf8 source = true) (h : Ahead source v) : isUtf8 (upTo source v) = true := by
  obtain ⟨p, rfl⟩ := h.suffix
  rw [upTo_append]
  exact (isUtf8From_split (by decide) (by decide) hsource h.head).1

theorem offsetOf_mono (hv : v <:+ source) (hw : w <:+ v) : Scan.offsetOf source v ≤ Scan.offsetOf source w := by
  have := hv.length_le
  have := hw.length_le
  unfold Scan.offsetOf
  omega

/-- What is cut out between two places is what stands between them. -/
theorem slice_eq (hv : Ahead source v) (hw : Ahead v w) :
    source.slice (Scan.offsetOf source v) (Scan.offsetOf source w) = upTo v w := by
  have hle := offsetOf_mono hv.suffix hw.suffix
  have hsource := (hv.trans hw).isBoundary
  unfold slice
  rw [if_pos (by simp [hle, hv.isBoundary, hsource])]
  obtain ⟨p, rfl⟩ := hv.suffix
  obtain ⟨q, rfl⟩ := hw.suffix
  have hstart : Scan.offsetOf (p ++ (q ++ w)) (q ++ w) = p.length := by simp [Scan.offsetOf]
  have hstop : Scan.offsetOf (p ++ (q ++ w)) w = (p ++ q).length := by simp [Scan.offsetOf]; omega
  rw [hstart, hstop, ← List.append_assoc, List.take_left, List.drop_left, upTo_append]

end Ahead

end Text

end PhpClass
