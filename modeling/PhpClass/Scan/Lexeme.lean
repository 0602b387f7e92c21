import PhpClass.Scan.Gap

/-!
# Lexemes

Code is read as quoted strings, comments and single bytes. Brackets, commas and semicolons count only
where they are lexemes of their own, so a scanner that goes from lexeme to lexeme never looks into a
string or a comment.
-/

namespace PhpClass

namespace Scan

/-- What the next stretch of code is. -/
inductive Lexeme where
  | quoted
  | comment
  | byte
  deriving DecidableEq, Repr

/-- What follows a string whose opening quote has been read. A backslash hides the byte after it. -/
def afterQuote (quote : UInt8) : Text → Option Text
  | [] => none
  | b :: t =>
    if b = quote then some t
    else if b = Byte.backslash then
      match t with
      | [] => none
      | _ :: t => afterQuote quote t
    else afterQuote quote t

/-- The lexeme at the front of `b :: t`, and what follows it. -/
def lexeme (b : UInt8) (t : Text) : Scan (Lexeme × Text) :=
  if Byte.isQuote b then
    match afterQuote b t with
    | some rest => .ok (.quoted, rest)
    | none => .error ⟨.unclosedString, t.length + 1⟩
  else
    match comment? (b :: t) with
    | .error e => .error e
    | .ok (some (_, rest)) => .ok (.comment, rest)
    | .ok none => .ok (.byte, t)

theorem afterQuote_suffix {quote : UInt8} {t rest : Text} (h : afterQuote quote t = some rest) :
    rest <:+ t := by
  fun_induction afterQuote quote t with
  | case1 => cases h
  | case2 => cases h; exact List.suffix_cons _ _
  | case3 => cases h
  | case4 _ _ _ ih => exact ((ih h).trans (List.suffix_cons _ _)).trans (List.suffix_cons _ _)
  | case5 _ _ _ _ ih => exact (ih h).trans (List.suffix_cons _ _)

theorem lexeme_suffix {b : UInt8} {t rest : Text} {l : Lexeme} (h : lexeme b t = .ok (l, rest)) :
    rest <:+ t := by
  unfold lexeme at h
  split at h
  · split at h
    · next hq => cases h; exact afterQuote_suffix hq
    · cases h
  · split at h
    · cases h
    · next hc =>
      cases h
      rcases List.suffix_cons_iff.1 (comment?_suffix hc) with rfl | hs
      · exact absurd (comment?_length hc) (Nat.lt_irrefl _)
      · exact hs
    · cases h; exact List.suffix_rfl

theorem lexeme_length {b : UInt8} {t rest : Text} {l : Lexeme} (h : lexeme b t = .ok (l, rest)) :
    rest.length < (b :: t).length :=
  Nat.lt_succ_of_le (lexeme_suffix h).length_le

end Scan

end PhpClass
