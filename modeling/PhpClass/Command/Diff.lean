import PhpClass.Text.Lines

/-!
# Differences

Two texts are compared line by line, the first line of one with the first of the other and so on. From a
line that differs on, a hunk shows up to three lines, and up to two lines in front of it.
-/

namespace PhpClass

namespace Diff

/-- The lines of both texts with one number, of which one may be missing. -/
structure Row where
  old : Option Text
  new : Option Text
  deriving DecidableEq, Repr

/-- Whether the texts have the same line here. -/
def Row.same (r : Row) : Bool := r.old == r.new

/-- The lines of two texts side by side. -/
def rows : List Text → List Text → List Row
  | [], [] => []
  | o :: os, [] => ⟨some o, none⟩ :: rows os []
  | [], n :: ns => ⟨none, some n⟩ :: rows [] ns
  | o :: os, n :: ns => ⟨some o, some n⟩ :: rows os ns

/-- The numbers of the lines that are shown together, counted from 0, the last one excluded. -/
structure Hunk where
  start : Nat
  stop : Nat
  deriving DecidableEq, Repr

/-- The hunks from a line on. -/
def hunksFrom (rows : Array Row) (i : Nat) : List Hunk :=
  if h : i < rows.size then
    if rows[i].same then hunksFrom rows (i + 1)
    else ⟨i - 2, min (i + 3) rows.size⟩ :: hunksFrom rows (min (i + 3) rows.size)
  else []
termination_by rows.size - i
decreasing_by all_goals omega

/-- The hunks of two texts. -/
def hunks (rows : List Row) : List Hunk := hunksFrom rows.toArray 0

/-- One line of a hunk, or two where the texts differ. -/
def Row.lines (r : Row) : List Text :=
  if r.same then (r.old.map (utf8 " " ++ ·)).toList
  else (r.old.map (utf8 "-" ++ ·)).toList ++ (r.new.map (utf8 "+" ++ ·)).toList

namespace Hunk

/-- The line that says where a hunk lies. -/
def title (h : Hunk) : Text :=
  let range := decimal (h.start + 1) ++ utf8 "," ++ decimal (h.stop - h.start)
  utf8 "@@ -" ++ range ++ utf8 " +" ++ range ++ utf8 " @@"

/-- The rows of a hunk. -/
def rows (all : List Row) (h : Hunk) : List Row := (all.take h.stop).drop h.start

def lines (all : List Row) (h : Hunk) : List Text :=
  h.title :: (h.rows all).flatMap Row.lines

end Hunk

/-- The lines of a difference. -/
def lines (path old new : Text) : List Text :=
  let all := rows old.lines new.lines
  [utf8 "--- " ++ path, utf8 "+++ " ++ path] ++ (hunks all).flatMap (Hunk.lines all)

/-- A difference, with a line break behind each line. -/
def text (path old new : Text) : Text := (lines path old new).flatMap (· ++ newline)

end Diff

end PhpClass
