import PhpClass.Grammar.File
import PhpClass.Proofs.ScannerLoops

/-!
# Reading makes progress

The rounds of the loops that read the namespace, the imports, the interfaces and the members of a class body. Each of
them reads something that is there: a statement in front of the namespace, the word `use` of an import, a name and a
comma, or a member. So the place at which the reader stands moves forward in each round.

`makes_progress` says so for these loops and for those of the scanners, at every place of every source. A loop ends
after at most one round for each byte ahead and the last one, and there are texts for which it takes as many
(`rounds_le_attained`).
-/

namespace PhpClass

open Text

namespace Grammar

/-! ## The loops of the header -/

/-- A round reads a gap and a statement, unless `namespace` stands behind the gap. -/
def namespaceLoop : Loop (List (Option Text)) (Read (List (Option Text) × Text)) := fun earlier t => .ofExcept do
  let (c, rest) ← comment t
  match keyword? (utf8 "namespace") rest with
  | some rest => return .done (.ok (earlier ++ [c], rest))
  | none => do
    let rest ← skipStatement rest
    return .again (earlier ++ [c]) rest

theorem namespaceLoop_shortens : namespaceLoop.Shortens := by
  intro earlier earlier' t rest h
  obtain ⟨⟨c, behind⟩, hc, h⟩ := bind_eq_ok.1 (Round.ofExcept_eq_again.1 h)
  dsimp only at h
  split at h
  · cases h
  · obtain ⟨rest, hskip, h⟩ := bind_eq_ok.1 h
    cases h
    have hread : IsProperRest rest behind := ⟨skipStatement_suffix hskip, skipStatement_length hskip⟩
    exact hread.of_suffix (comment_suffix hc)

theorem namespaceLoop_unfolds : namespaceLoop.Unfolds namespaceWord := by
  intro earlier t
  rw [namespaceWord_eq, namespaceLoop, Round.result_ofExcept]
  cases comment t with
  | error e => rfl
  | ok r =>
    dsimp only [bind, Except.bind]
    cases keyword? (utf8 "namespace") r.2 with
    | some rest => rfl
    | none => dsimp only; cases skipStatement r.2 <;> rfl

/-- A round reads a gap and, if `use` stands behind it, an import. -/
def importLoop : Loop (List (Element Text)) (Read (List (Element Text) × Option Text × Text)) :=
  fun before t => .ofExcept do
    let (c, rest) ← comment t
    match keyword? (utf8 "use") rest with
    | none => return .done (.ok (before, c, rest))
    | some rest => do
      let (i, rest) ← importName c rest
      return .again (before ++ [i]) rest

/-- The imports, with those that were read before. -/
def importsBehind (before : List (Element Text)) (t : Text) : Read (List (Element Text) × Option Text × Text) :=
  (imports t).map fun (more, pending, rest) => (before ++ more, pending, rest)

theorem importsBehind_nil (t : Text) : importsBehind [] t = imports t := by
  unfold importsBehind
  cases imports t <;> rfl

theorem importLoop_shortens : importLoop.Shortens := by
  intro before before' t rest h
  obtain ⟨⟨c, behind⟩, hc, h⟩ := bind_eq_ok.1 (Round.ofExcept_eq_again.1 h)
  dsimp only at h
  split at h
  · cases h
  · next word hword =>
    obtain ⟨⟨i, rest⟩, hi, h⟩ := bind_eq_ok.1 h
    cases h
    have huse : IsProperRest word behind := keyword?_suffix (show utf8 "use" ≠ [] by decide) hword
    exact .suffix_of (importName_suffix hi) (huse.of_suffix (comment_suffix hc))

theorem importLoop_unfolds : importLoop.Unfolds importsBehind := by
  intro before t
  rw [importsBehind, imports_eq, importLoop, Round.result_ofExcept]
  cases comment t with
  | error e => rfl
  | ok r =>
    dsimp only [bind, Except.bind]
    cases keyword? (utf8 "use") r.2 with
    | none => simp [Except.map, pure, Except.pure, Round.result]
    | some rest =>
      dsimp only
      cases importName r.1 rest with
      | error e => rfl
      | ok i =>
        dsimp only [pure, Except.pure, Round.result, importsBehind]
        cases imports i.2 <;> simp [Except.map]

/-- A round reads a name with the gaps around it and, if a comma stands behind it, the comma. -/
def interfaceLoop : Loop Interfaces (Read (Interfaces × Text)) := fun before t => .ofExcept do
  let (i, rest) ← interfaceName t
  match after? (utf8 ",") rest with
  | none => return .done (.ok (before.append i, rest))
  | some behind =>
    let comma : Interfaces := { trailing := [(Scan.trailing behind).1] }
    return .again (before.append (i.append comma)) (Scan.trailing behind).2

/-- The interfaces, with those that were read before. -/
def interfacesBehind (before : Interfaces) (t : Text) : Read (Interfaces × Text) :=
  (interfaces t).map fun (more, rest) => (before.append more, rest)

theorem interfacesBehind_nil (t : Text) : interfacesBehind {} t = interfaces t := by
  unfold interfacesBehind
  cases interfaces t <;> rfl

theorem interfaceLoop_shortens : interfaceLoop.Shortens := by
  intro before before' t rest h
  obtain ⟨⟨i, behind⟩, hi, h⟩ := bind_eq_ok.1 (Round.ofExcept_eq_again.1 h)
  dsimp only at h
  split at h
  · cases h
  · next comma hcomma =>
    cases h
    have hread : IsProperRest comma behind := by
      rw [after?_eq_some.1 hcomma]
      exact isProperRest_cons List.suffix_rfl
    exact .suffix_of (Scan.trailing_suffix comma) (hread.of_suffix (interfaceName_suffix hi))

theorem Interfaces.append_assoc (a b c : Interfaces) : (a.append b).append c = a.append (b.append c) := by
  simp [append]

theorem interfaceLoop_unfolds : interfaceLoop.Unfolds interfacesBehind := by
  intro before t
  rw [interfacesBehind, interfaces_eq, interfaceLoop, Round.result_ofExcept]
  cases interfaceName t with
  | error e => rfl
  | ok i =>
    dsimp only [bind, Except.bind]
    cases after? (utf8 ",") i.2 with
    | none => rfl
    | some behind =>
      dsimp only [pure, Except.pure, Round.result, interfacesBehind]
      cases interfaces (Scan.trailing behind).2 <;> simp [Except.map, Interfaces.append_assoc]

/-! ## The loop of the body -/

/-- A round reads a gap and, unless the closing brace stands behind it, a member, which it adds to the content. -/
def bodyLoop : Loop ClassContent (Read (ClassContent × Text)) := fun content t => .ofExcept do
  let (c, rest) ← comment t
  match after? [Byte.closeBrace] rest with
  | some rest => return .done (.ok ({ content with closingComment := c }, rest))
  | none =>
    if rest.isEmpty then Read.expect .bodyEnd rest
    else
      let (m, rest) ← member c rest
      let content ← Read.ofUnique (content.add m)
      return .again content rest

theorem bodyLoop_shortens : bodyLoop.Shortens := by
  intro content content' t rest h
  obtain ⟨⟨c, behind⟩, hc, h⟩ := bind_eq_ok.1 (Round.ofExcept_eq_again.1 h)
  dsimp only at h
  split at h
  · cases h
  · split at h
    · cases h
    · obtain ⟨⟨m, rest⟩, hm, h⟩ := bind_eq_ok.1 h
      obtain ⟨content, -, h⟩ := bind_eq_ok.1 h
      cases h
      have hread : IsProperRest rest behind := ⟨member_suffix hm, member_length hm⟩
      exact hread.of_suffix (comment_suffix hc)

theorem bodyLoop_unfolds : bodyLoop.Unfolds body := by
  intro content t
  rw [body_loop, bodyLoop, Round.result_ofExcept]
  cases comment t with
  | error e => rfl
  | ok r =>
    dsimp only [bind, Except.bind]
    cases after? [Byte.closeBrace] r.2 with
    | some rest => rfl
    | none =>
      dsimp only
      split
      · rfl
      · cases member r.1 r.2 with
        | error e => rfl
        | ok m => dsimp only; cases Read.ofUnique (content.add m.1) <;> rfl

/-! ## All loops -/

/-- At the place of the cursor a member that is read moves the place forward, and the loops make progress in every
state. A loop that collects something reads what its reader reads if nothing has been collected before. -/
structure MakesProgress (c : Cursor) : Prop where
  member : ∀ {before : Option Text} {m : Member} {rest : Text},
    member before c.ahead = .ok (m, rest) → c.MovesTo rest
  namespaceWord : namespaceLoop.Progresses namespaceWord c
  imports : importLoop.Progresses importsBehind c ∧ importsBehind [] = imports
  interfaces : interfaceLoop.Progresses interfacesBehind c ∧ interfacesBehind {} = interfaces
  body : bodyLoop.Progresses body c
  gap : Scan.gapLoop.Progresses Scan.gapBehind c ∧ Scan.gapBehind [] = Scan.gap
  type : typeLoop.Progresses (fun _ => afterType) c
  modifiers : ∀ allowed : List Modifier, (Modifiers.modifierLoop allowed).Progresses (Modifiers.readFrom allowed) c
  terminator : ∀ (strings : Bool) (terminator : UInt8),
    (Scan.terminatorLoop strings terminator).Progresses (Scan.afterTerminator strings terminator) c
  brackets : ∀ left : Nat, (Scan.bracketLoop left).Progresses (Scan.afterClosers left) c
  parts : Scan.partLoop.Progresses Scan.splitBehind c ∧
    ∀ limit depth : Nat, Scan.splitBehind ⟨limit, depth, [], []⟩ = Scan.splitFirst limit depth
  code : Scan.stripLoop.Progresses Scan.stripBehind c ∧ Scan.stripBehind ⟨[], 0⟩ = Scan.stripLexemes
  string : ∀ quote : UInt8, (Scan.stringLoop quote).Progresses (fun _ => Scan.afterQuote quote) c

/-- **The reader always makes progress**, at every place of every source, however malformed it is. -/
theorem makes_progress (c : Cursor) : MakesProgress c where
  member h := Cursor.movesTo_iff.2 ⟨member_suffix h, member_length h⟩
  namespaceWord := Loop.progresses namespaceLoop_shortens namespaceLoop_unfolds c
  imports := ⟨Loop.progresses importLoop_shortens importLoop_unfolds c, funext importsBehind_nil⟩
  interfaces := ⟨Loop.progresses interfaceLoop_shortens interfaceLoop_unfolds c, funext interfacesBehind_nil⟩
  body := Loop.progresses bodyLoop_shortens bodyLoop_unfolds c
  gap := ⟨Loop.progresses Scan.gapLoop_shortens Scan.gapLoop_unfolds c, funext Scan.gapBehind_nil⟩
  type := Loop.progresses typeLoop_shortens typeLoop_unfolds c
  modifiers allowed :=
    Loop.progresses (Modifiers.modifierLoop_shortens allowed) (Modifiers.modifierLoop_unfolds allowed) c
  terminator strings b :=
    Loop.progresses (Scan.terminatorLoop_shortens strings b) (Scan.terminatorLoop_unfolds strings b) c
  brackets left := Loop.progresses (Scan.bracketLoop_shortens left) (Scan.bracketLoop_unfolds left) c
  parts := ⟨Loop.progresses Scan.partLoop_shortens Scan.partLoop_unfolds c,
    fun limit depth => funext (Scan.splitBehind_nil limit depth)⟩
  code := ⟨Loop.progresses Scan.stripLoop_shortens Scan.stripLoop_unfolds c, funext Scan.stripBehind_nil⟩
  string quote := Loop.progresses (Scan.stringLoop_shortens quote) (Scan.stringLoop_unfolds quote) c

/-- A text without a terminator takes one round for each of its bytes, and the one that finds its end. -/
theorem rounds_le_attained (n : Nat) : (Scan.terminatorLoop true (ascii ';')).EndsAfter (n + 1) 0
    (List.replicate n (ascii 'a')) (.error ⟨.expected (ascii ';'), 0⟩) := by
  induction n with
  | zero => exact .done rfl
  | succ n ih => exact .again rfl ih

end Grammar

end PhpClass
