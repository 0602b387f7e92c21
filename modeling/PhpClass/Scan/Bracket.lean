import PhpClass.Scan.Lexeme

/-!
# Matching brackets

The partner of an opening bracket is found with a stack of the closers still owed. Strings and comments
are passed over as whole lexemes.
-/

namespace PhpClass

namespace Scan

/-- What follows the partner of the outermost bracket, when the closers in `owed`, the innermost first,
are still to come. If they never do, the fault lies where `left` says, at the outermost bracket. -/
def afterClosers (left : Nat) (owed : List UInt8) : Text → Scan Text
  | [] => .error ⟨.unclosedBlock, left⟩
  | b :: t =>
    match _h : lexeme b t with
    | .error e => .error e
    | .ok (.byte, rest) =>
      match Byte.closer? b with
      | some c => afterClosers left (c :: owed) rest
      | none =>
        if Byte.isCloser b then
          if owed.head? = some b then
            if owed.tail = [] then .ok rest else afterClosers left owed.tail rest
          else .error ⟨.unexpected b, t.length + 1⟩
        else afterClosers left owed rest
    | .ok (_, rest) => afterClosers left owed rest
termination_by t => t.length
decreasing_by all_goals exact lexeme_length ‹_›

/-- What follows the bracketed text that begins here. -/
def afterBracket : Text → Scan Text
  | [] => .error ⟨.unexpected 0, 0⟩
  | b :: t =>
    match Byte.closer? b with
    | some c => afterClosers (t.length + 1) [c] t
    | none => .error ⟨.unexpected b, t.length + 1⟩

/-- The bracketed text that begins here, from the opening bracket to its partner, and what follows. -/
def bracketed (t : Text) : Scan (Text × Text) := do
  let rest ← afterBracket t
  return (Text.upTo t rest, rest)

/-- A bracketed text without its brackets. -/
def insideBrackets (t : Text) : Text := t.tail.dropLast

@[simp] theorem insideBrackets_cons_concat (o c : UInt8) (t : Text) : insideBrackets (o :: (t ++ [c])) = t :=
  List.dropLast_concat

theorem afterClosers_suffix {left : Nat} {owed : List UInt8} {t rest : Text}
    (h : afterClosers left owed t = .ok rest) : rest <:+ t := by
  fun_induction afterClosers left owed t with
  | case1 => cases h
  | case2 => cases h
  | case3 _ _ _ _ hl _ _ ih => exact ((ih h).trans (lexeme_suffix hl)).trans (List.suffix_cons _ _)
  | case4 _ _ _ _ hl => cases h; exact (lexeme_suffix hl).trans (List.suffix_cons _ _)
  | case5 _ _ _ _ hl _ _ _ _ ih =>
    exact ((ih h).trans (lexeme_suffix hl)).trans (List.suffix_cons _ _)
  | case6 => cases h
  | case7 _ _ _ _ hl _ _ ih => exact ((ih h).trans (lexeme_suffix hl)).trans (List.suffix_cons _ _)
  | case8 _ _ _ _ _ _ hl ih => exact ((ih h).trans (lexeme_suffix hl)).trans (List.suffix_cons _ _)

theorem afterBracket_suffix {t rest : Text} (h : afterBracket t = .ok rest) : rest <:+ t := by
  unfold afterBracket at h
  split at h
  · cases h
  · split at h
    · exact (afterClosers_suffix h).trans (List.suffix_cons _ _)
    · cases h

theorem bracketed_eq_append {t block rest : Text} (h : bracketed t = .ok (block, rest)) :
    t = block ++ rest := by
  unfold bracketed at h
  cases hr : afterBracket t with
  | error e => rw [hr] at h; cases h
  | ok r => rw [hr] at h; cases h; exact (Text.upTo_append_rest (afterBracket_suffix hr)).symm

theorem bracketed_suffix {t block rest : Text} (h : bracketed t = .ok (block, rest)) :
    rest <:+ t := bracketed_eq_append h ▸ List.suffix_append _ _

end Scan

end PhpClass
