import PhpClass.Scan.Fault
import PhpClass.Text.Trim
import PhpClass.Text.Word

/-!
# Gaps

A gap is what may stand between two pieces of code: blanks, block comments and line comments. Reading a
gap collects the interiors of its comments, each followed by a line break.

The main lemma is that reading a gap returns a rest of the text (`gap_suffix`).
-/

namespace PhpClass

namespace Scan

/-- The interior of the comment that the text begins with, and what follows the comment. A line comment
ends in front of the end of its line. -/
def comment? (t : Text) : Scan (Option (Text × Text)) :=
  match Text.after? (utf8 "/*") t with
  | some inside =>
    match Text.cut? (utf8 "*/") inside with
    | some found => .ok (some found)
    | none => .error ⟨.unclosedComment, t.length⟩
  | none =>
    match Text.after? (utf8 "//") t with
    | some line => .ok (some (Text.splitWhile (fun b => !Byte.isLineEnd b) line))
    | none => .ok none

theorem comment?_eq_append {t inside rest : Text} (h : comment? t = .ok (some (inside, rest))) :
    t = utf8 "/*" ++ inside ++ utf8 "*/" ++ rest ∨ t = utf8 "//" ++ inside ++ rest := by
  unfold comment? at h
  split at h
  · next body hb =>
    split at h
    · next found hf =>
      cases h
      left
      rw [Text.after?_eq_some.1 hb, Text.cut?_eq_append hf]
      simp only [List.append_assoc]
    · cases h
  · split at h
    · next line hl =>
      cases h
      right
      rw [List.append_assoc, List.takeWhile_append_dropWhile]
      exact Text.after?_eq_some.1 hl
    · cases h

theorem comment?_suffix {t inside rest : Text} (h : comment? t = .ok (some (inside, rest))) :
    rest <:+ t := by
  rcases comment?_eq_append h with rfl | rfl
  · exact List.suffix_append _ _
  · exact List.suffix_append _ _

theorem comment?_length {t inside rest : Text} (h : comment? t = .ok (some (inside, rest))) :
    rest.length < t.length := by
  have two : (utf8 "/*").length = 2 ∧ (utf8 "//").length = 2 := by decide
  rcases comment?_eq_append h with rfl | rfl <;> simp only [List.length_append, two] <;> omega

/-- Reads the longest gap: the interiors of its comments, a line break after each, and what follows. -/
def gap (t : Text) : Scan (Text × Text) :=
  match _h : comment? (t.dropWhile Byte.isBlank) with
  | .error e => .error e
  | .ok none => .ok ([], t.dropWhile Byte.isBlank)
  | .ok (some (inside, rest)) =>
    match gap rest with
    | .error e => .error e
    | .ok (more, rest) => .ok (inside ++ newline ++ more, rest)
termination_by t.length
decreasing_by
  exact Nat.lt_of_lt_of_le (comment?_length ‹_›) (List.dropWhile_suffix _).length_le

theorem gap_suffix {t comments rest : Text} (h : gap t = .ok (comments, rest)) : rest <:+ t := by
  fun_induction gap t generalizing comments rest with
  | case1 t e he => cases h
  | case2 t hn => cases h; exact List.dropWhile_suffix _
  | case3 t inside next hc e he ih => cases h
  | case4 t inside next hc more last hg ih =>
    cases h
    exact ((ih hg).trans (comment?_suffix hc)).trans (List.dropWhile_suffix _)

/-- The `//` comment that begins after spaces and tabs, if there is one, and what follows. Without a
comment the spaces and tabs are still read. -/
def lineComment (t : Text) : Option Text × Text :=
  let t := t.dropWhile Byte.isGap
  match Text.after? (utf8 "//") t with
  | some line =>
    let (comment, rest) := Text.splitWhile (fun b => !Byte.isLineEnd b) line
    (some comment, rest)
  | none => (none, t)

theorem lineComment_suffix (t : Text) : (lineComment t).2 <:+ t := by
  unfold lineComment
  dsimp only
  split
  · next line hl =>
    refine .trans (.trans ?_ ⟨_, (Text.after?_eq_some.1 hl).symm⟩) (List.dropWhile_suffix Byte.isGap)
    exact Text.splitWhile_suffix _ line
  · exact List.dropWhile_suffix _

/-- What is kept of the comments of a gap: all but the last line break, if any of it is visible. -/
def commentText? (comments : Text) : Option Text :=
  let text := if comments.getLast? = some Byte.lineFeed then comments.dropLast else comments
  if Text.isSpace text then none else some text

/-- The visible text of the line comment behind an element, and what follows. -/
def trailing (t : Text) : Option Text × Text :=
  let (comment, rest) := lineComment t
  (comment.bind Text.visible?, rest)

theorem trailing_suffix (t : Text) : (trailing t).2 <:+ t := lineComment_suffix t

end Scan

end PhpClass
