import PhpClass.Grammar.Modifiers
import PhpClass.Proofs.Loop
import PhpClass.Proofs.WholeScan
import PhpClass.Scan.Strip

/-!
# The rounds of the scanners

Each scanner goes through its text in a loop. Here are the rounds of these loops, with what they have read so far as
their state, and for each loop two facts: a round that is not the last one leaves a proper rest of the text, and the
scanner is what the rounds come to.

A loop that collects something has it in its state from the beginning, while the scanner puts what it reads in front of
what it reads later. The functions whose names end in `Behind` put the two together.
-/

namespace PhpClass

open Text

/-! ## Types and modifiers -/

namespace Text

/-- A round reads bytes of a type, and an `&` if a further name follows it. -/
def typeLoop : Loop Unit Text := fun _ t =>
  match t.dropWhile Byte.isType with
  | [] => .done []
  | b :: rest => if b = ascii '&' && rest.head?.any Byte.isIdent then .again () rest else .done (b :: rest)

theorem typeLoop_shortens : typeLoop.Shortens := by
  intro s s' t rest h
  unfold typeLoop at h
  split at h
  · cases h
  · next b more hdrop =>
    split at h
    · cases h
      have hsuffix : b :: rest <:+ t := hdrop ▸ List.dropWhile_suffix Byte.isType
      exact (isProperRest_cons List.suffix_rfl).of_suffix hsuffix
    · cases h

/-- The bytes of a type in front of the text make no difference to what follows the type. -/
theorem afterType_dropWhile (t : Text) : afterType (t.dropWhile Byte.isType) = afterType t := by
  induction t with
  | nil => rfl
  | cons b t ih =>
    by_cases hb : Byte.isType b
    · rw [List.dropWhile_cons_of_pos hb, ih, afterType, if_pos hb]
    · rw [List.dropWhile_cons_of_neg hb]

theorem typeLoop_unfolds : typeLoop.Unfolds fun _ => afterType := by
  intro s t
  dsimp only
  rw [← afterType_dropWhile t, typeLoop]
  split
  · next hdrop => rw [hdrop]; rfl
  · next b rest hdrop =>
    -- no byte of a type is left in front, so the function looks for an `&` as the round does
    have hb : ¬Byte.isType b := by
      have hhead := List.head?_dropWhile_not Byte.isType t
      rw [hdrop] at hhead
      simpa using hhead
    rw [hdrop, afterType, if_neg hb]
    split <;> rfl

end Text

namespace Modifiers

/-- A round reads a modifier and the blanks behind it. -/
def modifierLoop (allowed : List Modifier) : Loop Modifiers (Modifiers × Text) := fun ms t =>
  match next? allowed ms t with
  | some (m, rest) => .again (ms.add m) rest
  | none => .done (ms, t)

theorem modifierLoop_shortens (allowed : List Modifier) : (modifierLoop allowed).Shortens := by
  intro ms ms' t rest h
  unfold modifierLoop at h
  split at h
  · next hnext =>
    cases h
    exact next?_suffix hnext
  · cases h

theorem modifierLoop_unfolds (allowed : List Modifier) : (modifierLoop allowed).Unfolds (readFrom allowed) := by
  intro ms t
  rw [readFrom, modifierLoop]
  split
  · next hnext => rw [hnext]; rfl
  · next hnext => rw [hnext]; rfl

end Modifiers

namespace Scan

/-! ## Gaps and strings -/

/-- A round reads blanks and a comment, whose interior it collects. -/
def gapLoop : Loop Text (Scan (Text × Text)) := fun before t =>
  match comment? (t.dropWhile Byte.isBlank) with
  | .error e => .done (.error e)
  | .ok none => .done (.ok (before, t.dropWhile Byte.isBlank))
  | .ok (some (inside, rest)) => .again (before ++ (inside ++ newline)) rest

/-- The longest gap, with what was collected before. -/
def gapBehind (before t : Text) : Scan (Text × Text) := (gap t).map fun (more, rest) => (before ++ more, rest)

theorem gapBehind_nil (t : Text) : gapBehind [] t = gap t := by
  unfold gapBehind
  cases gap t <;> rfl

theorem gapLoop_shortens : gapLoop.Shortens := by
  intro before before' t rest h
  unfold gapLoop at h
  split at h
  · cases h
  · cases h
  · next hcomment =>
    cases h
    have hread : IsProperRest rest (t.dropWhile Byte.isBlank) := ⟨comment?_suffix hcomment, comment?_length hcomment⟩
    exact hread.of_suffix (List.dropWhile_suffix Byte.isBlank)

theorem gapLoop_unfolds : gapLoop.Unfolds gapBehind := by
  intro before t
  rw [gapBehind, gap, gapLoop]
  split
  · next hcomment => rw [hcomment]; rfl
  · next hcomment => rw [hcomment]; simp [Except.map, Round.result]
  · next inside rest hcomment =>
    rw [hcomment]
    dsimp only [Round.result, gapBehind]
    cases gap rest <;> simp [Except.map]

/-- A round reads a byte of a string, or a backslash with the byte after it. -/
def stringLoop (quote : UInt8) : Loop Unit (Option Text) := fun _ t =>
  match t with
  | [] => .done none
  | b :: t => if b = quote then .done (some t) else if b = Byte.backslash then .again () t.tail else .again () t

theorem stringLoop_shortens (quote : UInt8) : (stringLoop quote).Shortens := by
  intro s s' t rest h
  unfold stringLoop at h
  split at h
  · cases h
  · next b t =>
    split at h
    · cases h
    · split at h
      · cases h
        exact isProperRest_cons (List.tail_suffix t)
      · cases h
        exact isProperRest_cons List.suffix_rfl

theorem stringLoop_unfolds (quote : UInt8) : (stringLoop quote).Unfolds fun _ => afterQuote quote := by
  intro s t
  cases t with
  | nil => rfl
  | cons b t =>
    dsimp only [stringLoop]
    rw [afterQuote.eq_def]
    dsimp only
    split
    · rfl
    · split
      · cases t <;> rfl
      · rfl

/-! ## Terminators and brackets -/

/-- A round reads a string or a byte and counts the open brackets. -/
def terminatorLoop (strings : Bool) (terminator : UInt8) : Loop Nat (Scan Text) := fun depth t =>
  match t with
  | [] => .done (.error ⟨.expected terminator, 0⟩)
  | b :: t =>
    if strings && Byte.isQuote b then
      match afterQuote b t with
      | some rest => .again depth rest
      | none => .done (.error ⟨.unclosedString, t.length + 1⟩)
    else if depth = 0 && b = terminator then .done (.ok t)
    else .again (nest depth b) t

theorem terminatorLoop_shortens (strings : Bool) (terminator : UInt8) :
    (terminatorLoop strings terminator).Shortens := by
  intro depth depth' t rest h
  unfold terminatorLoop at h
  split at h
  · cases h
  · next b t =>
    split at h
    · split at h
      · next hstring =>
        cases h
        exact isProperRest_cons (afterQuote_suffix hstring)
      · cases h
    · split at h
      · cases h
      · cases h
        exact isProperRest_cons List.suffix_rfl

theorem terminatorLoop_unfolds (strings : Bool) (terminator : UInt8) :
    (terminatorLoop strings terminator).Unfolds (afterTerminator strings terminator) := by
  intro depth t
  cases t with
  | nil => rw [afterTerminator]; rfl
  | cons b t =>
    rw [afterTerminator, terminatorLoop]
    split
    · split
      · next hstring => rw [hstring]; rfl
      · next hstring => rw [hstring]; rfl
    · split <;> rfl

/-- A round reads a lexeme and puts the closer of an opening bracket on the stack, or takes that of a closing bracket
from it. -/
def bracketLoop (left : Nat) : Loop (List UInt8) (Scan Text) := fun owed t =>
  match t with
  | [] => .done (.error ⟨.unclosedBlock, left⟩)
  | b :: t =>
    match lexeme b t with
    | .error e => .done (.error e)
    | .ok (.byte, rest) =>
      match Byte.closer? b with
      | some c => .again (c :: owed) rest
      | none =>
        if Byte.isCloser b then
          if owed.head? = some b then
            if owed.tail = [] then .done (.ok rest) else .again owed.tail rest
          else .done (.error ⟨.unexpected b, t.length + 1⟩)
        else .again owed rest
    | .ok (_, rest) => .again owed rest

theorem bracketLoop_shortens (left : Nat) : (bracketLoop left).Shortens := by
  intro owed owed' t rest h
  unfold bracketLoop at h
  split at h
  · cases h
  · next b t =>
    split at h
    · cases h
    · next behind hlexeme =>
      have hread : IsProperRest behind (b :: t) := isProperRest_cons (lexeme_suffix hlexeme)
      -- the stack says whether there is a further round, not where it begins
      split at h
      · cases h
        exact hread
      · split at h
        · split at h
          · split at h
            · cases h
            · cases h
              exact hread
          · cases h
        · cases h
          exact hread
    · next hlexeme =>
      cases h
      exact isProperRest_cons (lexeme_suffix hlexeme)

theorem bracketLoop_unfolds (left : Nat) : (bracketLoop left).Unfolds (afterClosers left) := by
  intro owed t
  cases t with
  | nil => rw [afterClosers]; rfl
  | cons b t =>
    rw [afterClosers, bracketLoop]
    split
    · next hlexeme => rw [hlexeme]; rfl
    · next hlexeme =>
      rw [hlexeme]
      cases Byte.closer? b with
      | some c => rfl
      | none =>
        dsimp only
        split
        · split
          · split <;> rfl
          · rfl
        · rfl
    · next l rest hbyte hlexeme =>
      rw [hlexeme]
      cases l with
      | byte => exact absurd rfl hbyte
      | _ => rfl

/-! ## Lists and comments -/

/-- What a list has been read into: the parts in front of a comma and what has been read of the next one, with the
number of bytes up to the end of the list and of open brackets. -/
structure PartsRead where
  limit : Nat
  depth : Nat
  parts : List Text
  part : Text

/-- A round reads a lexeme, and begins a further part behind a comma outside brackets. -/
def partLoop : Loop PartsRead (Scan (List Text)) := fun s t =>
  match s.limit, t with
  | 0, _ => .done (.ok (s.parts ++ [s.part]))
  | _, [] => .done (.ok (s.parts ++ [s.part]))
  | limit + 1, b :: t =>
    match lexeme b t with
    | .error e => .done (.error e)
    | .ok (.byte, rest) =>
      if s.depth = 0 && b = ascii ',' then .again ⟨limit, 0, s.parts ++ [s.part], []⟩ rest
      else .again ⟨limit, nest s.depth b, s.parts, s.part ++ [b]⟩ rest
    | .ok (_, rest) =>
      let read := Text.upTo (b :: t) rest
      .again ⟨limit + 1 - read.length, s.depth, s.parts, s.part ++ read.take (limit + 1)⟩ rest

/-- The parts of a list, with what was read before. -/
def splitBehind (s : PartsRead) (t : Text) : Scan (List Text) :=
  (splitFirst s.limit s.depth t).map fun parts => s.parts ++ extendFirst s.part parts

theorem extendFirst_append (a b : Text) (parts : List Text) :
    extendFirst (a ++ b) parts = extendFirst a (extendFirst b parts) := by
  cases parts with
  | nil => rfl
  | cons part parts => simp [extendFirst]

/-- A list has a first part, even if that is empty. -/
theorem extendFirst_nil {limit depth : Nat} {t : Text} {parts : List Text}
    (h : splitFirst limit depth t = .ok parts) : extendFirst [] parts = parts := by
  obtain ⟨part, parts, rfl⟩ := List.exists_cons_of_ne_nil (splitFirst_join h).1
  rfl

theorem splitBehind_nil (limit depth : Nat) (t : Text) :
    splitBehind ⟨limit, depth, [], []⟩ t = splitFirst limit depth t := by
  unfold splitBehind
  cases hsplit : splitFirst limit depth t with
  | error e => rfl
  | ok parts => simp [Except.map, extendFirst_nil hsplit]

theorem partLoop_shortens : partLoop.Shortens := by
  intro s s' t rest h
  unfold partLoop at h
  split at h
  · cases h
  · cases h
  · split at h
    · cases h
    · next hlexeme =>
      split at h <;> cases h <;> exact isProperRest_cons (lexeme_suffix hlexeme)
    · next hlexeme =>
      cases h
      exact isProperRest_cons (lexeme_suffix hlexeme)

theorem partLoop_unfolds : partLoop.Unfolds splitBehind := by
  rintro ⟨limit, depth, parts, part⟩ t
  unfold splitBehind partLoop
  cases limit with
  | zero => simp [splitFirst, Except.map, extendFirst, Round.result]
  | succ limit =>
    cases t with
    | nil => simp [splitFirst, Except.map, extendFirst, Round.result]
    | cons b t =>
      rw [splitFirst]
      dsimp only
      split
      · next hlexeme => rw [hlexeme]; rfl
      · next rest hlexeme =>
        rw [hlexeme]
        dsimp only
        split
        · dsimp only [Round.result]
          cases hsplit : splitFirst limit 0 rest with
          | error e => rfl
          | ok more =>
            have hparts : parts ++ extendFirst part ([] :: more) = parts ++ [part] ++ extendFirst [] more := by
              rw [extendFirst_nil hsplit]
              simp [extendFirst]
            exact congrArg Except.ok hparts
        · dsimp only [Round.result]
          cases splitFirst limit (nest depth b) rest with
          | error e => rfl
          | ok more => simp [Except.map, bind, Except.bind, pure, Except.pure, extendFirst_append]
      · next l rest hbyte hlexeme =>
        rw [hlexeme]
        cases l with
        | byte => exact absurd rfl hbyte
        | _ =>
          dsimp only [Round.result]
          cases splitFirst (limit + 1 - (upTo (b :: t) rest).length) depth rest with
          | error e => rfl
          | ok more => simp [Except.map, bind, Except.bind, pure, Except.pure, extendFirst_append]

/-- Code in front of further code. -/
def Stripped.append (a b : Stripped) : Stripped := ⟨a.code ++ b.code, a.comments + b.comments⟩

/-- A round reads a lexeme, and has a space for a comment. -/
def stripLoop : Loop Stripped (Scan Stripped) := fun before t =>
  match t with
  | [] => .done (.ok before)
  | b :: t =>
    match lexeme b t with
    | .error e => .done (.error e)
    | .ok (.comment, rest) => .again (before.append ⟨[Byte.space], 1⟩) rest
    | .ok (.byte, rest) => .again (before.append ⟨[b], 0⟩) rest
    | .ok (.quoted, rest) => .again (before.append ⟨Text.upTo (b :: t) rest, 0⟩) rest

/-- Code without its comments, behind what was read before. -/
def stripBehind (before : Stripped) (t : Text) : Scan Stripped := (stripLexemes t).map before.append

theorem stripBehind_nil (t : Text) : stripBehind ⟨[], 0⟩ t = stripLexemes t := by
  unfold stripBehind
  cases stripLexemes t with
  | error e => rfl
  | ok s => simp [Except.map, Stripped.append]

theorem stripLoop_shortens : stripLoop.Shortens := by
  intro before before' t rest h
  unfold stripLoop at h
  split at h
  · cases h
  · split at h
    · cases h
    all_goals
      next hlexeme =>
      cases h
      exact isProperRest_cons (lexeme_suffix hlexeme)

theorem stripLoop_unfolds : stripLoop.Unfolds stripBehind := by
  intro before t
  unfold stripBehind stripLoop
  cases t with
  | nil => simp [stripLexemes, Except.map, Stripped.append, Round.result]
  | cons b t =>
    rw [stripLexemes]
    dsimp only
    split
    · next hlexeme => rw [hlexeme]; rfl
    all_goals
      next rest hlexeme =>
      rw [hlexeme]
      dsimp only [Round.result]
      cases stripLexemes rest with
      | error e => rfl
      | ok more => simp [Except.map, bind, Except.bind, pure, Except.pure, Stripped.append, Nat.add_assoc, Nat.add_comm 1]

end Scan

end PhpClass
