import Mathlib.Logic.ExistsUnique
import PhpClass.Proofs.Character
import PhpClass.Text.Position

/-!
# Lines and columns tell places apart

Of two places between characters the later one has the greater line, or the same line and the greater column: the
text between them adds a line if a line feed stands in it, and otherwise characters to the same line
(`lastLine_append`). So a line and a column belong to one place only (`locate_increasing`).

A text of 2^32 - 1 bytes or more can have lines and columns that are too large to be shown, and is left out.
-/

namespace PhpClass

open Text

namespace Text

/-- The offset is a place in the text between two characters, or at one of its ends. -/
def IsPlace (t : Text) (offset : Nat) : Prop := offset ≤ t.length ∧ isBoundary t offset = true

instance (t : Text) (offset : Nat) : Decidable (IsPlace t offset) := inferInstanceAs (Decidable (_ ∧ _))

/-- What stands behind the last line feed. -/
def lastLine (t : Text) : Text := (t.reverse.takeWhile (· != Byte.lineFeed)).reverse

theorem lastLine_append_of_not_mem {u : Text} (h : Byte.lineFeed ∉ u) (t : Text) :
    lastLine (t ++ u) = lastLine t ++ u := by
  have hall : ∀ b ∈ u.reverse, (b != Byte.lineFeed) = true := by
    intro b hb
    rw [bne_iff_ne]
    rintro rfl
    exact h (List.mem_reverse.1 hb)
  rw [lastLine, List.reverse_append, List.takeWhile_append_of_pos hall, List.reverse_append, List.reverse_reverse,
    lastLine]

theorem lastLine_lineFeed (t : Text) : lastLine (t ++ [Byte.lineFeed]) = [] := by
  simp [lastLine]


end Text

namespace Position

/-- One position stands in front of another: in an earlier line, or in an earlier column of the same line. -/
def Before (p q : Position) : Prop := p.line < q.line ∨ p.line = q.line ∧ p.column < q.column

theorem Before.ne {p q : Position} (h : p.Before q) : p ≠ q := by
  rintro rfl
  rcases h with h | ⟨-, h⟩
  · exact Nat.lt_irrefl _ h
  · exact Nat.lt_irrefl _ h

variable {t : Text} {a b : Nat}

/-- Where nothing is too large to be shown, lines are counted by line feeds, and columns by characters. -/
theorem locate_eq (hlength : t.length < limit) (ha : IsPlace t a) :
    locate t a = ⟨(t.take a).count Byte.lineFeed + 1, charCount (lastLine (t.take a)) + 1⟩ := by
  obtain ⟨hle, hboundary⟩ := ha
  have hbefore : (t.take a).length = a := List.length_take_of_le hle
  have hline : (t.take a).count Byte.lineFeed ≤ (t.take a).length := List.count_le_length
  have hcolumn : charCount (lastLine (t.take a)) ≤ a := by
    have hcount : charCount (lastLine (t.take a)) ≤ (lastLine (t.take a)).length := List.countP_le_length
    have hlast : (lastLine (t.take a)).length ≤ (t.take a).length := by
      have hprefix := (List.takeWhile_prefix (l := (t.take a).reverse) (· != Byte.lineFeed)).length_le
      rwa [List.length_reverse, ← List.length_reverse] at hprefix
    omega
  unfold locate
  dsimp only
  rw [hbefore, if_pos hboundary, Nat.min_eq_left (by omega)]
  congr 1
  exact Nat.min_eq_left (by unfold lastLine at hcolumn; omega)

/-- A later place has a greater position. -/
theorem locate_before (ht : isUtf8 t = true) (hlength : t.length < limit) (ha : IsPlace t a) (hb : IsPlace t b)
    (hab : a < b) : (locate t a).Before (locate t b) := by
  rw [locate_eq hlength ha, locate_eq hlength hb]
  -- the text between the two places, which begins with a character
  obtain ⟨u, hu⟩ : ∃ u, u = (t.drop a).take (b - a) := ⟨_, rfl⟩
  have htake : t.take b = t.take a ++ u := by
    rw [hu, ← List.take_add, Nat.add_sub_cancel' (Nat.le_of_lt hab)]
  have hpos : 0 < charCount u := by
    have hdrop := (isUtf8_of_boundary ht ha.1 ha.2).2
    have hlt : a < t.length := Nat.lt_of_lt_of_le hab hb.1
    obtain ⟨x, hx⟩ : ∃ x, x = t[a] := ⟨_, rfl⟩
    rw [List.drop_eq_getElem_cons hlt] at hdrop hu
    obtain ⟨n, hn⟩ : ∃ n, b - a = n + 1 := ⟨b - a - 1, by omega⟩
    rw [hn, List.take_succ_cons] at hu
    rw [hu, charCount, List.countP_cons_of_pos (by simp [not_isContinuation hdrop])]
    omega
  rw [htake, List.count_append]
  unfold Before
  dsimp only
  by_cases hmem : Byte.lineFeed ∈ u
  · have hcount := List.count_pos_iff.2 hmem
    left
    omega
  · right
    rw [List.count_eq_zero.2 hmem, lastLine_append_of_not_mem hmem, charCount_append]
    omega

/-- **Positions increase with the places in a text**, so each belongs to one place. -/
theorem locate_increasing {t : Text} (ht : isUtf8 t = true) (hlength : t.length < limit) :
    (∀ a b, IsPlace t a → IsPlace t b → a < b → (locate t a).Before (locate t b)) ∧
      ∀ a, IsPlace t a → ∃! b, IsPlace t b ∧ locate t b = locate t a := by
  have hbefore : ∀ a b, IsPlace t a → IsPlace t b → a < b → (locate t a).Before (locate t b) := by
    intro a b ha hb hab
    exact locate_before ht hlength ha hb hab
  refine ⟨hbefore, ?_⟩
  intro a ha
  refine ⟨a, ⟨ha, rfl⟩, ?_⟩
  rintro b ⟨hb, hsame⟩
  rcases Nat.lt_trichotomy a b with hlt | heq | hlt
  · exact absurd hsame.symm (hbefore a b ha hb hlt).ne
  · exact heq.symm
  · exact absurd hsame (hbefore b a hb ha hlt).ne

/-- A character of two bytes, a carriage return, which begins no line, and an empty line. -/
theorem locate_increasing_empty_line :
    (isUtf8 (utf8 "é\r\n\nx") = true ∧ (utf8 "é\r\n\nx").length < limit) ∧
      (locate (utf8 "é\r\n\nx") 3).Before (locate (utf8 "é\r\n\nx") 4) ∧
      ∃! b, IsPlace (utf8 "é\r\n\nx") b ∧ locate (utf8 "é\r\n\nx") b = ⟨2, 1⟩ := by
  have hutf8 : isUtf8 (utf8 "é\r\n\nx") = true := by decide
  have hlength : (utf8 "é\r\n\nx").length < limit := by decide
  obtain ⟨hbefore, hunique⟩ := locate_increasing hutf8 hlength
  have hline : locate (utf8 "é\r\n\nx") 4 = ⟨2, 1⟩ := by decide
  refine ⟨⟨hutf8, hlength⟩, hbefore 3 4 (by decide) (by decide) (by decide), ?_⟩
  rw [← hline]
  exact hunique 4 (by decide)

end Position

end PhpClass
