import PhpClass.Grammar.File
import PhpClass.Proofs.TracedHeader
import PhpClass.Proofs.TracedMember

/-!
# Files step by step

Readings of whole sources. A UTF-8 source is only ever taken apart between characters: by the scanners, wherever
they are asked about a place between two of them, and by the readers of files and members at each of their steps.
-/

namespace PhpClass

open Text Grammar

namespace Traced

/-- The members up to the closing brace. -/
def body (source : Text) (content : ClassContent) (t : Text) : Traced (ClassContent × Text) := do
  let (c, rest) ← comment source t
  match after? [Byte.closeBrace] rest with
  | some rest =>
    come source rest
    return ({ content with closingComment := c }, rest)
  | none =>
    if rest.isEmpty then lift (Read.expect .bodyEnd rest)
    else
      let (m, rest) ← member source c rest
      let content ← lift (Read.ofUnique (content.add m))
      if _h : rest.length < t.length then body source content rest
      else lift (Read.expect .bodyEnd rest)
termination_by t.length

/-- A class file in a source. -/
def file (t : Text) : Traced ClassFile := do
  come t t
  match beyond? (utf8 "<?php") t with
  | none => lift (.error .noOpenTag)
  | some rest =>
    come t rest
    let (f, rest) ← header t rest
    let (content, _) ← body t {} rest
    return { f with content, source := t }

/-- A source with nothing but one member. -/
def onlyMember (t : Text) : Traced Member := do
  come t t
  let (c, rest) ← comment t t
  let (m, rest) ← member t c rest
  let (_, rest) ← comment t rest
  if rest.isEmpty then return m else lift (Read.stop .afterMember rest)

end Traced

namespace Keeps

variable {source t : Text}

theorem body (ht : Ahead source t) (content : ClassContent) :
    Keeps (Leaves source) (Traced.body source content t) (Grammar.body content t) := by
  induction h : t.length using Nat.strongRecOn generalizing t content with
  | ind n ih =>
    rw [Traced.body, body_loop]
    refine (comment ht).bind ?_
    rintro ⟨c, rest⟩ hc hrest
    dsimp only
    cases hclose : after? [Byte.closeBrace] rest with
    | some behind =>
      have hbehind : Ahead source behind := hrest.trans (after?_ahead (by decide) hrest.utf8 hclose)
      exact arrive hbehind
    | none =>
      dsimp only
      by_cases hempty : rest.isEmpty
      · rw [if_pos hempty, if_pos hempty]
        exact error _
      · rw [if_neg hempty, if_neg hempty]
        refine (member hrest c).bind ?_
        rintro ⟨m, last⟩ hm hlast
        refine lift_any.bind ?_
        rintro content - -
        have hlt := Nat.lt_of_lt_of_le (member_length hm) (comment_suffix hc).length_le
        rw [dif_pos hlt]
        exact ih _ (h ▸ hlt) hlast content rfl

theorem file (h : isUtf8 source = true) :
    Keeps (fun _ => True) (Traced.file source) (Grammar.source source) := by
  have hstart := Ahead.refl h
  refine come hstart ?_
  unfold Grammar.source
  cases htag : beyond? (utf8 "<?php") source with
  | none => exact error _
  | some rest =>
    have hrest : Ahead source rest := beyond?_ahead (by decide) (b := ascii 'p') (by decide) (by decide) h htag
    refine come hrest ?_
    unfold Grammar.file
    simp only [bind_assoc]
    refine (header hrest).bind ?_
    rintro ⟨f, behind⟩ - hbehind
    refine (body hbehind {}).bind ?_
    rintro ⟨content, _⟩ - -
    exact pure trivial

theorem onlyMember (h : isUtf8 source = true) :
    Keeps (fun _ => True) (Traced.onlyMember source) (Grammar.onlyMember source) := by
  have hstart := Ahead.refl h
  refine come hstart ((comment hstart).bind ?_)
  rintro ⟨c, rest⟩ - hrest
  refine (member hrest c).bind ?_
  rintro ⟨m, rest⟩ - hrest
  refine (comment hrest).bind ?_
  rintro ⟨_, rest⟩ - -
  dsimp only
  split
  · exact pure trivial
  · exact error _

end Keeps

/-- A source that is only taken apart between characters. -/
structure TakenApart (source : Text) : Prop where
  /-- What scanners say about a place between characters. -/
  scan : ∀ {offset}, offset ≤ source.length → isBoundary source offset = true → Scan.WholeAt source offset
  /-- Reading a file only comes to places between characters, and what it cuts out are whole characters. -/
  file : (Traced.file source).result.mapError (Failure.inSource source) = ClassFile.parse source ∧
    ∀ s ∈ (Traced.file source).steps, s.Whole
  /-- So does reading a member. -/
  member : (Traced.onlyMember source).result.mapError (Failure.inSource source) = Member.parse source ∧
    ∀ s ∈ (Traced.onlyMember source).steps, s.Whole

theorem takenApart_of_isUtf8 {source : Text} (h : isUtf8 source = true) : TakenApart source where
  scan := Scan.wholeAt_of_boundary h
  file := by
    have hfile := Keeps.file h
    exact ⟨congrArg _ hfile.result_eq, hfile.whole⟩
  member := by
    have hmember := Keeps.onlyMember h
    exact ⟨congrArg _ hmember.result_eq, hmember.whole⟩

/-- A backslash hides half a character, which leaves no trace. -/
theorem takenApart_escape : isUtf8 (utf8 "const A = '\\é;';") = true ∧ TakenApart (utf8 "const A = '\\é;';") ∧
    Scan.terminatorAt true (ascii ';') (utf8 "const A = '\\é;';") 9 = .ok 16 ∧
    (Member.parse (utf8 "const A = '\\é;';")).toOption.isSome = true :=
  ⟨by decide, takenApart_of_isUtf8 (by decide), by decide +kernel, by decide +kernel⟩

example : (Traced.onlyMember (utf8 "use É;")).steps = (
    let text := utf8 "use É;"
    -- the gap in front, the kind of the member, its head, its name, and the gaps behind it
    [.come text 0, .come text 0, .cut text 0 7, .cut text 0 3, .come text 3, .cut text 0 3, .come text 3, .come text 3,
      .cut text 3 6, .come text 7, .come text 7, .come text 7]) := by decide +kernel

end PhpClass
