import PhpClass.Grammar.Header
import PhpClass.Grammar.Member

/-!
# Files and members as sources

A source is read as a whole class file or as a single member. What follows the class is ignored; a
member must not be followed by more than a gap.
-/

namespace PhpClass

namespace Grammar

/-- The members up to the closing brace, added to those read before. -/
def body (content : ClassContent) (t : Text) : Read (ClassContent × Text) :=
  match _hc : comment t with
  | .error e => .error e
  | .ok (c, rest) =>
    match Text.after? [Byte.closeBrace] rest with
    | some rest => .ok ({ content with closingComment := c }, rest)
    | none =>
      if rest.isEmpty then Read.expect .bodyEnd rest
      else
        match _hm : member c rest with
        | .error e => .error e
        | .ok (m, rest) => do
          let content ← Read.ofUnique (content.add m)
          body content rest
termination_by t.length
decreasing_by exact Nat.lt_of_lt_of_le (member_length ‹_›) (comment_suffix ‹_›).length_le

/-- One round, and what follows it. -/
theorem body_loop (content : ClassContent) (t : Text) : body content t = (do
    let (c, rest) ← comment t
    match Text.after? [Byte.closeBrace] rest with
    | some rest => return ({ content with closingComment := c }, rest)
    | none =>
      if rest.isEmpty then Read.expect .bodyEnd rest
      else
        let (m, rest) ← member c rest
        let content ← Read.ofUnique (content.add m)
        body content rest) := by
  rw [body]
  cases comment t with
  | error e => rfl
  | ok r =>
    dsimp only [bind, Except.bind]
    cases Text.after? [Byte.closeBrace] r.2 with
    | some rest => rfl
    | none =>
      dsimp only
      split
      · rfl
      · cases member r.1 r.2 <;> rfl

/-- A class file from behind its open tag, without its source. -/
def file (t : Text) : Read (ClassFile × Text) := do
  let (f, rest) ← header t
  let (content, rest) ← body {} rest
  return ({ f with content }, rest)

/-- A class file in a source, which begins behind the first open tag. -/
def source (t : Text) : Read ClassFile :=
  match Text.beyond? (utf8 "<?php") t with
  | none => .error .noOpenTag
  | some rest => do
    let (f, _) ← file rest
    return { f with source := t }

/-- A source with nothing but one member and gaps. -/
def onlyMember (t : Text) : Read Member := do
  let (c, rest) ← comment t
  let (m, rest) ← member c rest
  let (_, rest) ← comment rest
  if rest.isEmpty then return m else Read.stop .afterMember rest

end Grammar

/-- Reads a class file. -/
def ClassFile.parse (t : Text) : Except ReadError ClassFile :=
  (Grammar.source t).mapError (Failure.inSource t)

/-- Reads a single member. -/
def Member.parse (t : Text) : Except ReadError Member :=
  (Grammar.onlyMember t).mapError (Failure.inSource t)

end PhpClass
