import PhpClass.Text.Cursor

/-!
# Loops that make progress

A loop over a text goes round by round. What a round does depends on a state and on the text that has not been read
yet. It ends the loop with a result, or it leaves a state and a rest of the text for the next round.

A loop makes progress if each round but the last leaves a proper rest (`Loop.Shortens`). Then it ends whatever the text
is, and the number of its rounds is bounded by what there is to read (`Loop.EndsAfter.le`, `Loop.endsAfter_iff`). At a
place of a source this says that the place moves forward in each round (`Loop.progresses`).
-/

namespace PhpClass

namespace Text

variable {b : UInt8} {rest t u : Text}

/-- A rest of the text in front of which something has been read. -/
def IsProperRest (rest t : Text) : Prop := rest <:+ t ∧ rest.length < t.length

theorem IsProperRest.of_suffix (h : IsProperRest rest u) (hsuffix : u <:+ t) : IsProperRest rest t :=
  ⟨h.1.trans hsuffix, Nat.lt_of_lt_of_le h.2 hsuffix.length_le⟩

theorem IsProperRest.suffix_of (hsuffix : rest <:+ u) (h : IsProperRest u t) : IsProperRest rest t :=
  ⟨hsuffix.trans h.1, Nat.lt_of_le_of_lt hsuffix.length_le h.2⟩

theorem isProperRest_cons (hsuffix : rest <:+ t) : IsProperRest rest (b :: t) :=
  ⟨hsuffix.trans (List.suffix_cons b t), Nat.lt_succ_of_le hsuffix.length_le⟩

end Text

namespace Cursor

/-- What lies ahead of a later place in the text of the cursor. No place is behind the end of the text. -/
structure MovesTo (c : Cursor) (rest : Text) : Prop where
  lt : c.offset < (c.seekRest rest).offset
  ahead_eq : (c.seekRest rest).ahead = rest

variable {c : Cursor} {rest : Text}

theorem length_ahead (c : Cursor) : c.offset + c.ahead.length = c.source.length := by
  have hle := c.offset_le
  rw [ahead, List.length_drop]
  omega

theorem movesTo_iff : c.MovesTo rest ↔ Text.IsProperRest rest c.ahead := by
  have hlength := c.length_ahead
  have hoffset : (c.seekRest rest).offset = c.source.length - rest.length := Nat.min_eq_left (Nat.sub_le _ _)
  constructor
  · rintro ⟨hlt, hahead⟩
    rw [hoffset] at hlt
    have hdrop : rest = c.ahead.drop (c.source.length - rest.length - c.offset) := by
      rw [ahead, List.drop_drop, show c.offset + (c.source.length - rest.length - c.offset) =
        c.source.length - rest.length by omega, ← hoffset]
      exact hahead.symm
    refine ⟨hdrop ▸ List.drop_suffix _ _, ?_⟩
    omega
  · rintro ⟨hsuffix, hlt⟩
    refine ⟨by omega, ?_⟩
    rw [ahead, hoffset]
    exact (List.suffix_iff_eq_drop.1 (hsuffix.trans (List.drop_suffix _ _))).symm

end Cursor

/-- What a round of a loop comes to. -/
inductive Round (σ ρ : Type) where
  /-- There is a further round, in a state and in front of a rest of the text. -/
  | again (s : σ) (rest : Text)
  /-- The loop ends with a result. -/
  | done (r : ρ)

/-- The result of the loop, if `run` says what it is from the next round on. -/
def Round.result {σ ρ : Type} (run : σ → Text → ρ) : Round σ ρ → ρ
  | again s rest => run s rest
  | done r => r

/-- A round that may fail. A failure is the result of the loop. -/
def Round.ofExcept {σ ε α : Type} : Except ε (Round σ (Except ε α)) → Round σ (Except ε α)
  | .error e => .done (.error e)
  | .ok round => round

theorem Round.ofExcept_eq_again {σ ε α : Type} {x : Except ε (Round σ (Except ε α))} {s : σ} {rest : Text} :
    Round.ofExcept x = .again s rest ↔ x = .ok (.again s rest) := by
  cases x <;> simp [ofExcept]

theorem Round.result_ofExcept {σ ε α : Type} {x : Except ε (Round σ (Except ε α))} {run : σ → Text → Except ε α} :
    (Round.ofExcept x).result run = x >>= Round.result run := by
  cases x <;> rfl

/-- A loop, as what a round does in a state and in front of a text. -/
abbrev Loop (σ ρ : Type) : Type := σ → Text → Round σ ρ

namespace Loop

variable {σ ρ : Type} {loop : Loop σ ρ} {run : σ → Text → ρ} {n : Nat} {s : σ} {t : Text} {r : ρ}

/-- The loop ends with the result after `n` rounds, the last one included. -/
inductive EndsAfter (loop : Loop σ ρ) : Nat → σ → Text → ρ → Prop
  | done {s : σ} {t : Text} {r : ρ} (h : loop s t = .done r) : EndsAfter loop 1 s t r
  | again {n : Nat} {s s' : σ} {t rest : Text} {r : ρ} (h : loop s t = .again s' rest)
      (hrest : EndsAfter loop n s' rest r) : EndsAfter loop (n + 1) s t r

/-- Each round but the last one leaves a proper rest of the text. -/
def Shortens (loop : Loop σ ρ) : Prop :=
  ∀ {s s' : σ} {t rest : Text}, loop s t = .again s' rest → Text.IsProperRest rest t

/-- The function does what a round does, and then what it does itself in front of the rest. -/
def Unfolds (loop : Loop σ ρ) (run : σ → Text → ρ) : Prop := ∀ s t, run s t = (loop s t).result run

theorem EndsAfter.le (hshort : loop.Shortens) (h : loop.EndsAfter n s t r) : n ≤ t.length + 1 := by
  induction h with
  | done _ => omega
  | again hround _ ih =>
    have hlt := (hshort hround).2
    omega

/-- A function that unfolds to the rounds of a loop that makes progress is what the loop ends with, and it always
ends. -/
theorem endsAfter_iff (hshort : loop.Shortens) (hrun : loop.Unfolds run) :
    (∃ n, loop.EndsAfter n s t r) ↔ run s t = r := by
  constructor
  · rintro ⟨n, h⟩
    induction h with
    | done hround => rw [hrun, hround]; rfl
    | again hround _ ih => rw [hrun, hround]; exact ih
  · rintro rfl
    -- on what is left to read, which every round but the last one makes shorter
    induction hlength : t.length using Nat.strongRecOn generalizing s t with
    | ind length ih =>
      rw [hrun]
      cases hround : loop s t with
      | done r => exact ⟨1, .done hround⟩
      | again s' rest =>
        have hlt := (hshort hround).2
        obtain ⟨n, hends⟩ := ih rest.length (hlength ▸ hlt) rfl
        exact ⟨n + 1, .again hround hends⟩

/-- At the place of the cursor, whatever its state, the loop makes progress: a round that does not end it moves the
place forward; it ends, with what the function returns; and until then there is at most one round for each byte ahead,
and the last one. -/
structure Progresses (loop : Loop σ ρ) (run : σ → Text → ρ) (c : Cursor) : Prop where
  moves : ∀ {s s' : σ} {rest : Text}, loop s c.ahead = .again s' rest → c.MovesTo rest
  ends_iff : ∀ {s : σ} {r : ρ}, (∃ n, loop.EndsAfter n s c.ahead r) ↔ run s c.ahead = r
  rounds_le : ∀ {n : Nat} {s : σ} {r : ρ}, loop.EndsAfter n s c.ahead r → c.offset + n ≤ c.source.length + 1

theorem progresses (hshort : loop.Shortens) (hrun : loop.Unfolds run) (c : Cursor) : loop.Progresses run c := by
  refine ⟨fun hround => Cursor.movesTo_iff.2 (hshort hround), endsAfter_iff hshort hrun, fun hends => ?_⟩
  have hle := hends.le hshort
  have hlength := c.length_ahead
  omega

end Loop

end PhpClass
