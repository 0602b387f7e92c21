import PhpClass.Scan.Lexeme

/-!
# Code without comments

Each comment outside strings is replaced by a space, which keeps the words around it apart.
-/

namespace PhpClass

namespace Scan

/-- Code and the number of comments that were taken out of it. -/
structure Stripped where
  code : Text
  comments : Nat
  deriving DecidableEq, Repr

/-- Reads the whole text, lexeme by lexeme. -/
def stripLexemes : Text → Scan Stripped
  | [] => .ok ⟨[], 0⟩
  | b :: t =>
    match _h : lexeme b t with
    | .error e => .error e
    | .ok (.comment, rest) => do
      let s ← stripLexemes rest
      return ⟨Byte.space :: s.code, s.comments + 1⟩
    | .ok (.byte, rest) => do
      let s ← stripLexemes rest
      return { s with code := b :: s.code }
    | .ok (.quoted, rest) => do
      let s ← stripLexemes rest
      return { s with code := Text.upTo (b :: t) rest ++ s.code }
termination_by t => t.length
decreasing_by all_goals exact lexeme_length ‹_›

/-- The code without its comments. A text without a slash holds none and is not read at all. -/
def strip (t : Text) : Scan Stripped :=
  if t.contains (ascii '/') then stripLexemes t else .ok ⟨t, 0⟩

end Scan

end PhpClass
