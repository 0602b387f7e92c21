import PhpClass.Grammar.Header
import PhpClass.Proofs.Traced

/-!
# Gaps and words step by step

The readers of gaps, comments, words and statements as traced readings, each named for its reader. Each comes to the
end of what it reads and cuts out what it returns.
-/

namespace PhpClass

open Text

namespace Traced

/-- The longest gap, from whose comments the interiors are cut out. -/
def gap (source t : Text) : Traced (Text × Text) :=
  match _h : Scan.comment? (t.dropWhile Byte.isBlank) with
  | .error e => lift (Read.ofScan (.error e))
  | .ok none => do
    come source (t.dropWhile Byte.isBlank)
    return ([], t.dropWhile Byte.isBlank)
  | .ok (some (inside, rest)) => do
    -- both opening marks have two bytes
    let start := (t.dropWhile Byte.isBlank).drop 2
    let comment ← cut source start (start.drop inside.length)
    let (more, rest) ← gap source rest
    return (comment ++ newline ++ more, rest)
termination_by t.length
decreasing_by
  exact Nat.lt_of_lt_of_le (Scan.comment?_length ‹_›) (List.dropWhile_suffix _).length_le

def comment (source t : Text) : Traced (Option Text × Text) := do
  let (comments, rest) ← gap source t
  return (Scan.commentText? comments, rest)

def trailing (source t : Text) : Traced (Option Text × Text) :=
  match after? (utf8 "//") (t.dropWhile Byte.isGap) with
  | some line => do
    let rest := line.dropWhile Scan.isInLine
    let comment ← cut source line rest
    come source rest
    return (visible? comment, rest)
  | none => do
    come source (t.dropWhile Byte.isGap)
    return (none, t.dropWhile Byte.isGap)

/-- A required word of some kind. -/
def word (read : Text → Text × Text) (source : Text) (what : Expected) (t : Text) : Traced (Text × Text) := do
  let word ← cut source t (read t).2
  if word.isEmpty then lift (Read.expect what t)
  else
    come source (read t).2
    return (word, (read t).2)

def ident : Text → Expected → Text → Traced (Text × Text) := word Text.ident

def name : Text → Expected → Text → Traced (Text × Text) := word Text.name

def type (source t : Text) : Traced (Text × Text) := do
  let word ← cut source t (afterType t)
  come source (afterType t)
  return (word, afterType t)

def statement (source : Text) (strings : Bool) (what : Expected) (t : Text) : Traced (Text × Text) := do
  let rest ← lift (Read.ofScan (Scan.afterTerminator strings (ascii ';') 0 t))
  let text ← cut source t (ascii ';' :: rest)
  match visible? text with
  | some text =>
    come source rest
    return (text, rest)
  | none => lift (Read.expect what t)

/-- What follows a statement in front of the namespace, which is cut out to be reported. -/
def skipStatement (source t : Text) : Traced Text :=
  match Scan.afterTerminator true (ascii ';') 0 t with
  | .ok rest => do
    let _ ← cut source t (ascii ';' :: rest)
    come source rest
    return rest
  | .error _ => lift (Read.expect .namespaceDecl t)

end Traced

namespace Keeps

open Grammar

variable {source t : Text}

theorem ofScan_gap {inside rest : Text} (h : Scan.comment? (t.dropWhile Byte.isBlank) = .ok (some (inside, rest))) :
    Read.ofScan (Scan.gap t) = (do
      let (more, last) ← Read.ofScan (Scan.gap rest)
      return (inside ++ newline ++ more, last)) := by
  rw [Scan.gap]
  split <;> rename_i hc <;> rw [h] at hc <;> cases hc
  cases Scan.gap rest <;> rfl

theorem gap (ht : Ahead source t) : Keeps (Leaves source) (Traced.gap source t) (Read.ofScan (Scan.gap t)) := by
  have hblank : Ahead t (t.dropWhile Byte.isBlank) := dropWhile_ascii_ahead Byte.ascii_of_isBlank ht.utf8
  fun_induction Traced.gap source t with
  | case1 t e hc =>
    rw [Scan.gap]
    split <;> rename_i h <;> rw [hc] at h <;> cases h
    exact error _
  | case2 t hc =>
    rw [Scan.gap]
    split <;> rename_i h <;> rw [hc] at h <;> cases h
    exact arrive (ht.trans hblank)
  | case3 t inside rest hc start ih =>
    obtain ⟨v, w, rfl, rfl, hin, hinside, hrest⟩ := Scan.comment?_ahead hblank.utf8 hc
    have hnext : Ahead t rest := hblank.trans ((hin.ahead.trans hin.ahead_end).trans hrest)
    rw [ofScan_gap hc]
    refine cut (ht.trans (hblank.trans hin.ahead)) hin.ahead_end ?_
    rw [hinside]
    refine (ih (ht.trans hnext) (dropWhile_ascii_ahead Byte.ascii_of_isBlank hrest.utf8)).bind ?_
    rintro ⟨more, last⟩ - hlast
    exact pure hlast

theorem skipBlanks_ahead (ht : Ahead source t) : Ahead source (skipBlanks t) :=
  ht.trans (dropWhile_ascii_ahead Byte.ascii_of_isBlank ht.utf8)

theorem ahead_of_keyword? {word rest : Text} (hword : isUtf8 word = true) (ht : Ahead source t)
    (h : keyword? word t = some rest) : Ahead source rest := ht.trans (keyword?_ahead hword ht.utf8 h)

theorem comment (ht : Ahead source t) : Keeps (Leaves source) (Traced.comment source t) (Grammar.comment t) := by
  refine (gap ht).bind ?_
  rintro ⟨comments, rest⟩ - hrest
  exact pure hrest

theorem trailing (ht : Ahead source t) : Keeps (Leaves source) (Traced.trailing source t) (.ok (Scan.trailing t)) := by
  have hgap : Ahead t (t.dropWhile Byte.isGap) := dropWhile_ascii_ahead Byte.ascii_of_isGap ht.utf8
  unfold Traced.trailing Scan.trailing Scan.lineComment
  dsimp only
  cases hl : after? (utf8 "//") (t.dropWhile Byte.isGap) with
  | none => exact arrive (ht.trans hgap)
  | some line =>
    have hline : Ahead t line := hgap.trans (after?_ahead (by decide) hgap.utf8 hl)
    have hrest : Ahead line (line.dropWhile Scan.isInLine) :=
      dropWhile_ahead Scan.ascii_of_not_isInLine hline.utf8
    refine cut (ht.trans hline) hrest ?_
    rw [upTo_dropWhile]
    exact arrive (ht.trans (hline.trans hrest))

theorem word {read : Text → Text × Text} (ht : Ahead source t) (hrest : Ahead t (read t).2)
    (hread : upTo t (read t).2 = (read t).1) (what : Expected) :
    Keeps (Leaves source) (Traced.word read source what t)
      (if (read t).1.isEmpty then Read.expect what t else .ok (read t)) := by
  refine cut ht hrest ?_
  rw [hread]
  split
  · exact error _
  · exact arrive (ht.trans hrest)

theorem ident (ht : Ahead source t) (what : Expected) :
    Keeps (Leaves source) (Traced.ident source what t) (Grammar.ident what t) := by
  have h := word ht (ident_ahead ht.utf8) (upTo_ident t) what
  rw [Grammar.ident, ident?]
  dsimp only
  split at h
  · next hempty =>
    rw [if_pos hempty]
    exact h
  · next hword =>
    rw [if_neg hword]
    exact h

theorem name (ht : Ahead source t) (what : Expected) :
    Keeps (Leaves source) (Traced.name source what t) (Grammar.name what t) :=
  word ht (name_ahead ht.utf8) (upTo_name t) what

theorem type (ht : Ahead source t) : Keeps (Leaves source) (Traced.type source t) (.ok (Text.type t)) := by
  have hrest : Ahead t (afterType t) := afterType_ahead ht.utf8
  exact cut ht hrest (arrive (ht.trans hrest))

theorem statement (ht : Ahead source t) (strings : Bool) (what : Expected) :
    Keeps (Leaves source) (Traced.statement source strings what t) (Grammar.statement strings what t) := by
  unfold Traced.statement Grammar.statement Scan.terminated
  cases hr : Scan.afterTerminator strings (ascii ';') 0 t with
  | error e => exact error _
  | ok rest =>
    obtain ⟨hend, hrest⟩ := Scan.afterTerminator_ahead (by decide) ht.utf8 hr
    refine lift_any.bind_ok fun _ => cut ht hend ?_
    change Keeps _ _ (match visible? (upTo t (ascii ';' :: rest)) with
      | some text => .ok (text, rest)
      | none => Read.expect what t)
    split
    · exact arrive (ht.trans hrest)
    · exact error _

theorem skipStatement (ht : Ahead source t) :
    Keeps (Ahead source) (Traced.skipStatement source t) (Grammar.skipStatement t) := by
  unfold Traced.skipStatement Grammar.skipStatement
  cases hr : Scan.afterTerminator true (ascii ';') 0 t with
  | error e => exact error _
  | ok rest =>
    obtain ⟨hend, hrest⟩ := Scan.afterTerminator_ahead (by decide) ht.utf8 hr
    exact cut ht hend (come (ht.trans hrest) (pure (ht.trans hrest)))

end Keeps

end PhpClass
