import PhpClass.Proofs.Utf8

/-!
# Characters of a UTF-8 text

A UTF-8 text is the encoding of a list of characters (`exists_encode`), and counting the bytes that continue no
character counts these characters (`charCount_encode`).

The rows of the table of first bytes are the lengths of encodings: what a first byte asks for are the bytes of a code
point that is no shorter and no surrogate.
-/

namespace PhpClass

namespace Text

/-- The encoding of characters. -/
def encode (cs : List Char) : Text := cs.flatMap String.utf8EncodeChar

theorem encode_cons (x : Char) (cs : List Char) : encode (x :: cs) = String.utf8EncodeChar x ++ encode cs :=
  List.flatMap_cons

/-- The value of a byte lies between two numbers. -/
abbrev InRange (b : UInt8) (low high : Nat) : Prop := low ≤ b.toNat ∧ b.toNat ≤ high

theorem InRange.mono {b : UInt8} {low high low' high' : Nat} (h : InRange b low high) (hlow : low' ≤ low)
    (hhigh : high ≤ high') : InRange b low' high' := ⟨Nat.le_trans hlow h.1, Nat.le_trans h.2 hhigh⟩

/-! ## The bytes of one character -/

section

variable {b c d e : UInt8}

theorem exists_val {n : Nat} (h : n.isValidChar) : ∃ x : Char, x.val.toNat = n := ⟨Char.ofNatAux n h, rfl⟩

theorem ofNat_eq {n : Nat} (h : n = b.toNat) : UInt8.ofNat n = b := by
  rw [h, UInt8.ofNat_toNat]

theorem encodeChar_one (hb : InRange b 0 0x7F) : ∃ x, String.utf8EncodeChar x = [b] := by
  obtain ⟨x, hx⟩ := exists_val (n := b.toNat) (.inl (by omega))
  refine ⟨x, ?_⟩
  rw [String.utf8EncodeChar, hx, if_pos hb.2, UInt8.ofNat_toNat]

theorem encodeChar_two (hb : InRange b 0xC2 0xDF) (hc : InRange c 0x80 0xBF) :
    ∃ x, String.utf8EncodeChar x = [b, c] := by
  obtain ⟨x, hx⟩ := exists_val (n := (b.toNat - 0xC0) * 64 + (c.toNat - 0x80)) (.inl (by omega))
  refine ⟨x, ?_⟩
  rw [String.utf8EncodeChar, hx, if_neg (by omega), if_pos (by omega), ofNat_eq (b := b) (by omega),
    ofNat_eq (b := c) (by omega)]

theorem encodeChar_three (hb : InRange b 0xE0 0xEF) (hc : InRange c 0x80 0xBF) (hd : InRange d 0x80 0xBF)
    (hshort : b.toNat = 0xE0 → 0xA0 ≤ c.toNat) (hsurrogate : b.toNat = 0xED → c.toNat ≤ 0x9F) :
    ∃ x, String.utf8EncodeChar x = [b, c, d] := by
  obtain ⟨x, hx⟩ := exists_val (n := (b.toNat - 0xE0) * 4096 + (c.toNat - 0x80) * 64 + (d.toNat - 0x80))
    (by unfold Nat.isValidChar; omega)
  refine ⟨x, ?_⟩
  rw [String.utf8EncodeChar, hx, if_neg (by omega), if_neg (by omega), if_pos (by omega),
    ofNat_eq (b := b) (by omega), ofNat_eq (b := c) (by omega), ofNat_eq (b := d) (by omega)]

theorem encodeChar_four (hb : InRange b 0xF0 0xF4) (hc : InRange c 0x80 0xBF) (hd : InRange d 0x80 0xBF)
    (he : InRange e 0x80 0xBF) (hshort : b.toNat = 0xF0 → 0x90 ≤ c.toNat) (hlast : b.toNat = 0xF4 → c.toNat ≤ 0x8F) :
    ∃ x, String.utf8EncodeChar x = [b, c, d, e] := by
  obtain ⟨x, hx⟩ := exists_val
    (n := (b.toNat - 0xF0) * 262144 + (c.toNat - 0x80) * 4096 + (d.toNat - 0x80) * 64 + (e.toNat - 0x80))
    (by unfold Nat.isValidChar; omega)
  refine ⟨x, ?_⟩
  rw [String.utf8EncodeChar, hx, if_neg (by omega), if_neg (by omega), if_neg (by omega),
    ofNat_eq (b := b) (by omega), ofNat_eq (b := c) (by omega), ofNat_eq (b := d) (by omega),
    ofNat_eq (b := e) (by omega)]

/-- The rows of the table of first bytes. -/
theorem lead?_range : ∀ b, ∀ l ∈ lead? b,
    l.1 = 0 ∧ InRange b 0 0x7F ∨ l.1 = 1 ∧ InRange b 0xC2 0xDF ∨
    l.1 = 2 ∧ InRange b 0xE0 0xEF ∧ (b.toNat = 0xE0 → 0xA0 ≤ l.2.1.toNat) ∧ (b.toNat = 0xED → l.2.2.toNat ≤ 0x9F) ∨
    l.1 = 3 ∧ InRange b 0xF0 0xF4 ∧ (b.toNat = 0xF0 → 0x90 ≤ l.2.1.toNat) ∧ (b.toNat = 0xF4 → l.2.2.toNat ≤ 0x8F) :=
  Byte.forall_of_fin (by decide +kernel)

theorem exists_continuation {more : Nat} {low high : UInt8} {t : Text}
    (h : isUtf8From (more + 1) low high t = true) : ∃ b u, t = b :: u ∧ InRange b low.toNat high.toNat ∧
      isUtf8From more 0x80 0xBF u = true := by
  cases t with
  | nil => cases h
  | cons b u =>
    rw [isUtf8From, Bool.and_eq_true, Bool.and_eq_true, decide_eq_true_eq, decide_eq_true_eq,
      UInt8.le_iff_toNat_le, UInt8.le_iff_toNat_le] at h
    exact ⟨b, u, rfl, h.1, h.2⟩

/-- At the front of a UTF-8 text stands a character. -/
theorem exists_encodeChar {t : Text} (h : isUtf8 (b :: t) = true) :
    ∃ x u, b :: t = String.utf8EncodeChar x ++ u ∧ isUtf8 u = true := by
  rw [isUtf8, isUtf8From_zero_cons] at h
  split at h
  · next more low high hlead =>
    obtain ⟨hlow, hhigh, -⟩ := lead?_spec b _ hlead
    rw [UInt8.le_iff_toNat_le] at hlow hhigh
    rcases lead?_range b _ hlead with ⟨rfl, hb⟩ | ⟨rfl, hb⟩ | ⟨rfl, hb, hfirst, hlast⟩ | ⟨rfl, hb, hfirst, hlast⟩
    · obtain ⟨x, hx⟩ := encodeChar_one hb
      exact ⟨x, t, by rw [hx]; rfl, (isUtf8From_zero low high t).symm.trans h⟩
    · obtain ⟨c, t, rfl, hc, h⟩ := exists_continuation h
      obtain ⟨x, hx⟩ := encodeChar_two hb (hc.mono hlow hhigh)
      exact ⟨x, t, by rw [hx]; rfl, h⟩
    · obtain ⟨c, t, rfl, hc, h⟩ := exists_continuation h
      obtain ⟨d, t, rfl, hd, h⟩ := exists_continuation h
      obtain ⟨x, hx⟩ := encodeChar_three hb (hc.mono hlow hhigh) hd (fun he => Nat.le_trans (hfirst he) hc.1)
        (fun he => Nat.le_trans hc.2 (hlast he))
      exact ⟨x, t, by rw [hx]; rfl, h⟩
    · obtain ⟨c, t, rfl, hc, h⟩ := exists_continuation h
      obtain ⟨d, t, rfl, hd, h⟩ := exists_continuation h
      obtain ⟨e, t, rfl, he, h⟩ := exists_continuation h
      obtain ⟨x, hx⟩ := encodeChar_four hb (hc.mono hlow hhigh) hd he (fun he => Nat.le_trans (hfirst he) hc.1)
        (fun he => Nat.le_trans hc.2 (hlast he))
      exact ⟨x, t, by rw [hx]; rfl, h⟩
  · cases h

end

/-! ## All characters -/

theorem exists_encode {t : Text} (h : isUtf8 t = true) : ∃ cs, t = encode cs := by
  induction hn : t.length using Nat.strongRecOn generalizing t with
  | ind n ih =>
    subst hn
    cases t with
    | nil => exact ⟨[], rfl⟩
    | cons b t =>
      obtain ⟨x, u, hx, hu⟩ := exists_encodeChar h
      have hlt : u.length < (b :: t).length := by
        rw [hx, List.length_append, String.length_utf8EncodeChar]
        have hpos := x.utf8Size_pos
        omega
      obtain ⟨cs, rfl⟩ := ih u.length hlt hu rfl
      exact ⟨x :: cs, by rw [hx, encode_cons]⟩

theorem isContinuation_ofNat {n : Nat} (h : n < 256) :
    isContinuation (UInt8.ofNat n) = decide (0x80 ≤ n ∧ n ≤ 0xBF) := by
  have hn : (UInt8.ofNat n).toNat = n := UInt8.toNat_ofNat_of_lt' h
  simp [isContinuation, UInt8.le_iff_toNat_le, hn]

/-- All bytes of a character but the first one continue it. -/
theorem charCount_encodeChar (x : Char) : charCount (String.utf8EncodeChar x) = 1 := by
  have hx : x.val.toNat < 0x110000 := by
    rcases x.valid with h | h
    · omega
    · exact h.2
  unfold String.utf8EncodeChar charCount
  dsimp only
  generalize x.val.toNat = n at hx
  -- one, two, three or four bytes
  repeat' split
  all_goals
    simp (disch := omega) only [List.countP_cons, List.countP_nil, isContinuation_ofNat]
    simp
    omega

theorem charCount_append (s t : Text) : charCount (s ++ t) = charCount s + charCount t := List.countP_append

theorem charCount_encode (cs : List Char) : charCount (encode cs) = cs.length := by
  induction cs with
  | nil => rfl
  | cons x cs ih => rw [encode_cons, charCount_append, charCount_encodeChar, ih, List.length_cons, Nat.add_comm]

end Text

end PhpClass
