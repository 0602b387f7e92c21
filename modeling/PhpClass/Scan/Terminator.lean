import PhpClass.Scan.Lexeme

/-!
# Terminators

A statement ends at the first terminator outside brackets. Brackets are only counted, whatever their
kind; a closing bracket without a partner counts for nothing. Comments are not told apart from code.
-/

namespace PhpClass

namespace Scan

/-- The number of open brackets after a further byte. -/
def nest (depth : Nat) (b : UInt8) : Nat :=
  if Byte.isOpener b then depth + 1 else if Byte.isCloser b then depth - 1 else depth

/-- What follows the first terminator outside brackets. Strings are passed over if `strings` is set. -/
def afterTerminator (strings : Bool) (terminator : UInt8) (depth : Nat) : Text → Scan Text
  | [] => .error ⟨.expected terminator, 0⟩
  | b :: t =>
    if strings && Byte.isQuote b then
      match _h : afterQuote b t with
      | some rest => afterTerminator strings terminator depth rest
      | none => .error ⟨.unclosedString, t.length + 1⟩
    else if depth = 0 && b = terminator then .ok t
    else afterTerminator strings terminator (nest depth b) t
termination_by t => t.length
decreasing_by
  · exact Nat.lt_succ_of_le (afterQuote_suffix ‹_›).length_le
  · exact Nat.lt_succ_self _

/-- The text in front of the first terminator outside brackets, and what follows the terminator. -/
def terminated (strings : Bool) (terminator : UInt8) (t : Text) : Scan (Text × Text) := do
  let rest ← afterTerminator strings terminator 0 t
  return (Text.upTo t (terminator :: rest), rest)

theorem afterTerminator_suffix {strings : Bool} {terminator : UInt8} {depth : Nat} {t rest : Text}
    (h : afterTerminator strings terminator depth t = .ok rest) : terminator :: rest <:+ t := by
  fun_induction afterTerminator strings terminator depth t with
  | case1 => cases h
  | case2 _ _ _ _ _ hq ih => exact ((ih h).trans (afterQuote_suffix hq)).trans (List.suffix_cons _ _)
  | case3 => cases h
  | case4 _ b t _ hb =>
    cases h
    simp only [Bool.and_eq_true, decide_eq_true_eq] at hb
    exact hb.2 ▸ List.suffix_rfl
  | case5 _ _ _ _ _ ih => exact (ih h).trans (List.suffix_cons _ _)

theorem terminated_eq_append {strings : Bool} {terminator : UInt8} {t before rest : Text}
    (h : terminated strings terminator t = .ok (before, rest)) :
    t = before ++ terminator :: rest := by
  unfold terminated at h
  cases hr : afterTerminator strings terminator 0 t with
  | error e => rw [hr] at h; cases h
  | ok r => rw [hr] at h; cases h; exact (Text.upTo_append_rest (afterTerminator_suffix hr)).symm

theorem terminated_suffix {strings : Bool} {terminator : UInt8} {t before rest : Text}
    (h : terminated strings terminator t = .ok (before, rest)) : rest <:+ t :=
  terminated_eq_append h ▸ (List.suffix_cons _ _).trans (List.suffix_append _ _)

end Scan

end PhpClass
