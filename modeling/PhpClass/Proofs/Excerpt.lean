import Mathlib.Data.List.Induction
import PhpClass.Command.Report
import PhpClass.Proofs.Position
import PhpClass.Proofs.WholeScan

/-!
# The line that a report shows

A report on a malformed source shows the piece of the source, between two line feeds, in which the place of the error
lies, and under it a caret. The piece is found by looking for the line feeds on both sides of the place, its number by
counting those in front of it, and the column by counting characters. These agree (`exists_liesIn`), and the caret
stands under the character at the place (`render_points`).
-/

namespace PhpClass

open Text

namespace Text

/-! ## Pieces around a place -/

theorem not_mem_lastLine (t : Text) : Byte.lineFeed ∉ lastLine t := by
  intro hmem
  have hline := within_takeWhile (· != Byte.lineFeed) t.reverse _ (List.mem_reverse.1 hmem)
  simp at hline

theorem pieces_of_not_mem {p : Text} (h : Byte.lineFeed ∉ p) : pieces p = [p] := List.splitOn_eq_singleton h

/-- Pieces, a line feed behind each of them, and more text. -/
theorem pieces_flatMap {ps : List Text} (h : ∀ p ∈ ps, Byte.lineFeed ∉ p) (t : Text) :
    pieces (ps.flatMap (· ++ newline) ++ t) = ps ++ pieces t := by
  induction ps with
  | nil => rfl
  | cons p ps ih =>
    obtain ⟨hp, hps⟩ := List.forall_mem_cons.1 h
    have hfirst : pieces (p ++ Byte.lineFeed :: (ps.flatMap (· ++ newline) ++ t)) =
        p :: pieces (ps.flatMap (· ++ newline) ++ t) := List.splitOn_append_cons_self_of_not_mem hp _
    rw [List.flatMap_cons, List.append_assoc, List.append_assoc, newline, List.singleton_append]
    rw [newline] at hfirst ih
    rw [hfirst, ih hps, List.cons_append]

/-- A text is as many pieces with their line feeds as it has line feeds, and then its last line. -/
theorem exists_earlier (t : Text) : ∃ ps : List Text, (∀ p ∈ ps, Byte.lineFeed ∉ p) ∧
    t = ps.flatMap (· ++ newline) ++ lastLine t ∧ ps.length = t.count Byte.lineFeed := by
  induction t using List.reverseRecOn with
  | nil => exact ⟨[], by simp, rfl, rfl⟩
  | append_singleton t b ih =>
    obtain ⟨ps, hps, ht, hlength⟩ := ih
    by_cases hb : b = Byte.lineFeed
    · subst hb
      refine ⟨ps ++ [lastLine t], ?_, ?_, ?_⟩
      · intro p hp
        rcases List.mem_append.1 hp with hp | hp
        · exact hps p hp
        · exact List.mem_singleton.1 hp ▸ not_mem_lastLine t
      · rw [lastLine_lineFeed, List.append_nil, List.flatMap_append, List.flatMap_singleton, ← List.append_assoc, ← ht]
        rfl
      · simp [hlength]
    · have hmem : Byte.lineFeed ∉ [b] := by simpa using Ne.symm hb
      refine ⟨ps, hps, ?_, ?_⟩
      · rw [lastLine_append_of_not_mem hmem, ← List.append_assoc, ← ht]
      · rw [hlength, List.count_append, List.count_eq_zero.2 hmem, Nat.add_zero]

/-- The first piece goes on up to the first line feed. -/
theorem exists_later {front : Text} (h : Byte.lineFeed ∉ front) (t : Text) :
    ∃ ps, pieces (front ++ t) = (front ++ t.takeWhile (· != Byte.lineFeed)) :: ps := by
  have hinside : Byte.lineFeed ∉ front ++ t.takeWhile (· != Byte.lineFeed) := by
    intro hmem
    rcases List.mem_append.1 hmem with hmem | hmem
    · exact h hmem
    · have hline := within_takeWhile (· != Byte.lineFeed) t _ hmem
      simp at hline
  have ht : t.takeWhile (· != Byte.lineFeed) ++ t.dropWhile (· != Byte.lineFeed) = t :=
    List.takeWhile_append_dropWhile
  cases hrest : t.dropWhile (· != Byte.lineFeed) with
  | nil =>
    rw [hrest, List.append_nil] at ht
    rw [ht] at hinside ⊢
    exact ⟨[], pieces_of_not_mem hinside⟩
  | cons b u =>
    have hstop := apart_dropWhile (· != Byte.lineFeed) t
    rw [hrest, apart_cons] at hstop
    obtain rfl : b = Byte.lineFeed := by simpa using hstop
    rw [hrest] at ht
    refine ⟨pieces u, ?_⟩
    rw [← ht, ← List.append_assoc]
    conv => rhs; rw [ht]
    exact List.splitOn_append_cons_self_of_not_mem hinside u

/-- A text without the carriage returns at its end. -/
theorem exists_dropReturns (t : Text) : ∃ n, t = dropReturns t ++ List.replicate n Byte.carriageReturn ∧
    (dropReturns t).getLast? ≠ some Byte.carriageReturn := by
  have hsplit := List.takeWhile_append_dropWhile (p := (· == Byte.carriageReturn)) (l := t.reverse)
  have hall : t.reverse.takeWhile (· == Byte.carriageReturn) =
      List.replicate (t.reverse.takeWhile (· == Byte.carriageReturn)).length Byte.carriageReturn := by
    rw [List.eq_replicate_iff]
    refine ⟨rfl, fun b hb => ?_⟩
    simpa using within_takeWhile (· == Byte.carriageReturn) t.reverse b hb
  refine ⟨(t.reverse.takeWhile (· == Byte.carriageReturn)).length, ?_, ?_⟩
  · have hreverse := congrArg List.reverse hsplit
    rw [List.reverse_append, List.reverse_reverse, hall, List.reverse_replicate] at hreverse
    exact hreverse.symm
  · rw [dropReturns, List.getLast?_reverse]
    intro hlast
    have hstop := apart_dropWhile (· == Byte.carriageReturn) t.reverse _ hlast
    simp at hstop

end Text

namespace Report

/-! ## Places in lines -/

/-- The place lies in the piece of the source behind the pieces in `earlier`, between the characters in `front` and
those in `back`. -/
structure LiesIn (source : Text) (offset : Nat) (earlier : List Text) (front back : List Char) : Prop where
  piece : ∃ later, source.pieces = earlier ++ (encode front ++ encode back) :: later
  take_eq : source.take offset = earlier.flatMap (· ++ newline) ++ encode front

variable {source : Text} {offset : Nat}

theorem isUtf8_lastLine {t : Text} (h : isUtf8 t = true) : isUtf8 (lastLine t) = true := by
  obtain ⟨ps, -, ht, -⟩ := exists_earlier t
  rcases List.eq_nil_or_concat ps with rfl | ⟨qs, q, rfl⟩
  · have hall : t = lastLine t := ht
    rwa [← hall]
  · have hsuffix : Byte.lineFeed :: lastLine t <:+ t := by
      refine ⟨qs.flatMap (· ++ newline) ++ q, ?_⟩
      conv => rhs; rw [ht]
      simp [newline]
    exact isUtf8_of_ascii_suffix (by decide) h hsuffix

theorem isUtf8_firstLine {t : Text} (h : isUtf8 t = true) : isUtf8 (t.takeWhile (· != Byte.lineFeed)) = true := by
  have hstop : Ahead t (t.dropWhile (· != Byte.lineFeed)) := by
    apply dropWhile_ahead _ h
    intro b hb
    obtain rfl : b = Byte.lineFeed := by simpa using hb
    decide
  rw [← upTo_dropWhile]
  exact hstop.isUtf8_upTo h

/-- Every place lies in a piece, and its line and its column are where it lies. -/
theorem exists_liesIn (hs : isUtf8 source = true) (hlength : source.length < Position.limit)
    (h : IsPlace source offset) : ∃ earlier front back, LiesIn source offset earlier front back ∧
      encode front ++ encode back =
        lastLine (source.take offset) ++ (source.drop offset).takeWhile (· != Byte.lineFeed) ∧
      Position.locate source offset = ⟨earlier.length + 1, front.length + 1⟩ := by
  obtain ⟨hbefore, hbehind⟩ := isUtf8_of_boundary hs h.1 h.2
  obtain ⟨earlier, hearlier, htake, hcount⟩ := exists_earlier (source.take offset)
  obtain ⟨later, hlater⟩ := exists_later (not_mem_lastLine (source.take offset)) (source.drop offset)
  obtain ⟨front, hfront⟩ := exists_encode (isUtf8_lastLine hbefore)
  obtain ⟨back, hback⟩ := exists_encode (isUtf8_firstLine hbehind)
  refine ⟨earlier, front, back, ⟨⟨later, ?_⟩, by rw [← hfront, ← htake]⟩, by rw [hfront, hback], ?_⟩
  · conv => lhs; rw [← List.take_append_drop offset source, htake]
    rw [List.append_assoc, pieces_flatMap hearlier, hlater, hfront, hback]
  · rw [Position.locate_eq hlength h, hcount, hfront, charCount_encode]

/-! ## Reports -/

/-- What stands in front of a line that is shown. -/
def gutter (label : Text) : Text := utf8 "  " ++ label ++ utf8 " | "

/-- What stands in front of the caret, which is under as many characters of the line. -/
def caretGap (number : Text) (column : Nat) : Text := gutter (spaces number.length) ++ spaces column

/-- The lines above the excerpt. -/
def headline (path : Text) (cause : Cause) (place : Position) : Text :=
  line (utf8 "error: " ++ cause.text) ++ line (utf8 "  --> " ++ path ++ utf8 ":" ++ place.text) ++
    line (utf8 "  " ++ spaces (decimal place.line).length ++ utf8 " |")

theorem charCount_spaces (n : Nat) : charCount (spaces n) = n := by
  rw [charCount, spaces, List.countP_replicate]
  rfl

/-- A number is written in ASCII. -/
theorem charCount_decimal (n : Nat) : charCount (decimal n) = (decimal n).length := by
  rw [charCount, List.countP_eq_length]
  intro b hb
  obtain ⟨x, hx, rfl⟩ := List.mem_map.1 hb
  have hdigit := Nat.isDigit_of_mem_toDigits (by decide) (by decide) hx
  rw [Char.isDigit, Bool.and_eq_true, decide_eq_true_eq, decide_eq_true_eq] at hdigit
  have hle : x.val.toNat ≤ 57 := UInt32.le_iff_toNat_le.1 hdigit.2
  have hval : ascii x = UInt8.ofNat x.val.toNat := rfl
  have hrange : ¬(0x80 ≤ x.val.toNat ∧ x.val.toNat ≤ 0xBF) := by omega
  rw [hval, isContinuation_ofNat (by omega), decide_eq_false hrange]
  rfl

theorem charCount_caretGap (n : Nat) (front : List Char) :
    charCount (caretGap (decimal n) front.length) = charCount (gutter (decimal n) ++ encode front) := by
  simp only [caretGap, gutter, charCount_append, charCount_spaces, charCount_decimal, charCount_encode]

theorem render_excerpt {shown : Text} (h : sourceLine? source offset = some shown) (path : Text) (cause : Cause)
    (place : Position) : render path source (.unreadable (.malformed cause offset place)) =
      headline path cause place ++ line (gutter (decimal place.line) ++ shown) ++
        line (caretGap (decimal place.line) (place.column - 1) ++ utf8 "^") := by
  have hbar : utf8 " | " = utf8 " |" ++ utf8 " " := rfl
  rw [render, h, Option.elim_some, excerpt, headline, gutter, caretGap, gutter, hbar]
  simp only [List.append_assoc]

/-- What a report on an error at a place shows. -/
structure Points (source : Text) (offset : Nat) (earlier : List Text) (front back : List Char) : Prop where
  lies : LiesIn source offset earlier front back
  locate_eq : Position.locate source offset = ⟨earlier.length + 1, front.length + 1⟩
  /-- The piece is shown without the carriage returns at its end, and the caret stands under the character at the
  place. -/
  shows : ∃ shown n, encode front ++ encode back = shown ++ List.replicate n Byte.carriageReturn ∧
    shown.getLast? ≠ some Byte.carriageReturn ∧ sourceLine? source offset = some shown ∧
    ∀ path cause, render path source (.unreadable (.malformed cause offset (.locate source offset))) =
      headline path cause (.locate source offset) ++ line (gutter (decimal (earlier.length + 1)) ++ shown) ++
        line (caretGap (decimal (earlier.length + 1)) front.length ++ utf8 "^")
  under : charCount (caretGap (decimal (earlier.length + 1)) front.length) =
    charCount (gutter (decimal (earlier.length + 1)) ++ encode front)

/-- **A report points at the place of the error.** -/
theorem render_points {source : Text} (hs : isUtf8 source = true) (hlength : source.length < Position.limit)
    {offset : Nat} (h : IsPlace source offset) : ∃ earlier front back, Points source offset earlier front back := by
  obtain ⟨earlier, front, back, hlies, hpiece, hlocate⟩ := exists_liesIn hs hlength h
  obtain ⟨n, hreturns, hlast⟩ := exists_dropReturns (encode front ++ encode back)
  have hshown : sourceLine? source offset = some (dropReturns (encode front ++ encode back)) := by
    unfold sourceLine?
    rw [if_pos (by simp [h.1, h.2]), hpiece]
    rfl
  refine ⟨earlier, front, back, hlies, hlocate, ⟨_, n, hreturns, hlast, hshown, ?_⟩, charCount_caretGap _ front⟩
  intro path cause
  rw [render_excerpt hshown, hlocate, Nat.add_sub_cancel]

/-- A place behind a character of two bytes, in a line with a carriage return at its end. -/
theorem render_points_accent :
    (isUtf8 (utf8 "<?php\nclass É \x7b\r\n") = true ∧ (utf8 "<?php\nclass É \x7b\r\n").length < Position.limit) ∧
      IsPlace (utf8 "<?php\nclass É \x7b\r\n") 15 ∧
      sourceLine? (utf8 "<?php\nclass É \x7b\r\n") 15 = some (utf8 "class É \x7b") ∧
      ∃ earlier front back, Points (utf8 "<?php\nclass É \x7b\r\n") 15 earlier front back ∧
        earlier.length = 1 ∧ front.length = 8 := by
  have hutf8 : isUtf8 (utf8 "<?php\nclass É \x7b\r\n") = true := by decide
  have hlength : (utf8 "<?php\nclass É \x7b\r\n").length < Position.limit := by decide
  have hplace : IsPlace (utf8 "<?php\nclass É \x7b\r\n") 15 := by decide
  have hlocate : Position.locate (utf8 "<?php\nclass É \x7b\r\n") 15 = ⟨2, 9⟩ := by decide
  obtain ⟨earlier, front, back, h⟩ := render_points hutf8 hlength hplace
  obtain ⟨hline, hcolumn⟩ := Position.mk.inj (hlocate.symm.trans h.locate_eq)
  exact ⟨⟨hutf8, hlength⟩, hplace, by decide, earlier, front, back, h, by omega, by omega⟩

end Report

end PhpClass
