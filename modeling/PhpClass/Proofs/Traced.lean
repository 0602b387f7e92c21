import PhpClass.Grammar.Failure
import PhpClass.Proofs.WholeScan

/-!
# Readings step by step

Readers of the grammar pass on what they have not read. A traced reading returns what such a reader returns and
notes beside it what happens in the source: each place to which it comes, and each stretch that it cuts out. What
it returns is made of the stretches as they were cut out, so a stretch that is none would be seen in the result.

`Keeps` relates a traced reading to a reader: the results are equal and no step leaves the source or stands inside
a character. It is kept by sequences (`Keeps.bind`), so that it is proved reader by reader.
-/

namespace PhpClass

open Text

/-- What a reading does in a source. -/
inductive Step where
  /-- It comes to an offset. -/
  | come (source : Text) (offset : Nat)
  /-- It cuts out the bytes from `start` up to `stop`. -/
  | cut (source : Text) (start stop : Nat)
  deriving DecidableEq, Repr

/-- The place lies in the source between two characters; so do both ends of a stretch, which is not reversed. -/
def Step.Whole : Step → Prop
  | come source offset => offset ≤ source.length ∧ isBoundary source offset = true
  | cut source start stop =>
    start ≤ stop ∧ stop ≤ source.length ∧ isBoundary source start = true ∧ isBoundary source stop = true

instance Step.decidableWhole : (s : Step) → Decidable s.Whole
  | come _ _ => inferInstanceAs (Decidable (_ ∧ _))
  | cut _ _ _ => inferInstanceAs (Decidable (_ ∧ _))

/-- The result of reading, with the steps up to there. -/
structure Traced (α : Type) where
  steps : List Step
  result : Read α

namespace Traced

variable {α β : Type}

def pure (a : α) : Traced α := ⟨[], .ok a⟩

/-- One reading behind another, unless the first has failed. -/
def bind (x : Traced α) (f : α → Traced β) : Traced β :=
  match x.result with
  | .error e => ⟨x.steps, .error e⟩
  | .ok a => ⟨x.steps ++ (f a).steps, (f a).result⟩

instance : Monad Traced where
  pure := pure
  bind := bind

/-- A reading that cuts nothing out. -/
def lift (x : Read α) : Traced α := ⟨[], x⟩

/-- Comes to where `rest` begins. -/
def come (source rest : Text) : Traced Unit := ⟨[.come source (Scan.offsetOf source rest)], .ok ()⟩

/-- Cuts out what stands from where `v` begins up to where `w` begins. -/
def cut (source v w : Text) : Traced Text :=
  ⟨[.cut source (Scan.offsetOf source v) (Scan.offsetOf source w)],
    .ok (source.slice (Scan.offsetOf source v) (Scan.offsetOf source w))⟩

/-- Comes to what a reader leaves. -/
def reach (source : Text) (x : Read Text) : Traced Text := do
  let rest ← lift x
  come source rest
  return rest

end Traced

/-! ## Whole steps -/

/-- A traced reading that agrees with a reader and takes whole steps only; what is read has the property. -/
structure Keeps {α : Type} (P : α → Prop) (x : Traced α) (y : Read α) : Prop where
  result_eq : x.result = y
  whole : ∀ s ∈ x.steps, s.Whole
  spec : ∀ a, y = .ok a → P a

/-- What a reader leaves of the source begins between two characters. -/
abbrev Leaves {α : Type} (source : Text) (r : α × Text) : Prop := Ahead source r.2

namespace Keeps

variable {α β : Type} {P : α → Prop} {Q : β → Prop} {x : Traced α} {y : Read α} {source v w rest : Text}

theorem pure {a : α} (h : P a) : Keeps P (Pure.pure a) (.ok a) := by
  refine ⟨rfl, fun s hs => ?_, fun b hb => ?_⟩
  · cases hs
  · cases hb
    exact h

theorem lift (h : ∀ a, y = .ok a → P a) : Keeps P (.lift y) y := ⟨rfl, fun _ => (nomatch ·), h⟩

theorem lift_any : Keeps (fun _ => True) (.lift y) y := lift fun _ _ => trivial

theorem error (e : Failure) : Keeps P (.lift (.error e)) (.error e) := lift fun _ ha => nomatch ha

/-- Steps add up, and the second reading is only asked about what the first has read. -/
theorem bind {f : α → Traced β} {g : α → Read β} (hx : Keeps P x y)
    (hf : ∀ a, y = .ok a → P a → Keeps Q (f a) (g a)) : Keeps Q (x >>= f) (y >>= g) := by
  obtain ⟨steps, result⟩ := x
  obtain ⟨rfl, hsteps, hspec⟩ := hx
  cases result with
  | error e => exact ⟨rfl, hsteps, fun b hb => nomatch hb⟩
  | ok a =>
    have ha := hf a rfl (hspec a rfl)
    refine ⟨ha.result_eq, fun s hs => ?_, ha.spec⟩
    rcases List.mem_append.1 hs with hs | hs
    · exact hsteps s hs
    · exact ha.whole s hs

/-- In front of a reading whose counterpart has that result anyway. -/
theorem bind_ok {f : α → Traced β} {a : α} {z : Read β} (hx : Keeps P x (.ok a)) (hf : P a → Keeps Q (f a) z) :
    Keeps Q (x >>= f) z := by
  refine hx.bind (g := fun _ => z) ?_
  intro b hb
  cases hb
  exact hf

theorem come {f : Unit → Traced α} (h : Ahead source rest) (hf : Keeps P (f ()) y) :
    Keeps P (Traced.come source rest >>= f) y := by
  have hstep : Keeps (fun _ => True) (Traced.come source rest) (.ok ()) := by
    refine ⟨rfl, fun s hs => ?_, fun _ _ => trivial⟩
    obtain rfl := List.mem_singleton.1 hs
    exact ⟨Ahead.offsetOf_le source rest, h.isBoundary⟩
  exact hstep.bind_ok fun _ => hf

theorem cut {f : Text → Traced α} (hv : Ahead source v) (hw : Ahead v w) (hf : Keeps P (f (upTo v w)) y) :
    Keeps P (Traced.cut source v w >>= f) y := by
  have hstep : Keeps (fun _ => True) (Traced.cut source v w) (.ok (upTo v w)) := by
    refine ⟨congrArg Except.ok (hv.slice_eq hw), fun s hs => ?_, fun _ _ => trivial⟩
    obtain rfl := List.mem_singleton.1 hs
    exact ⟨Ahead.offsetOf_mono hv.suffix hw.suffix, Ahead.offsetOf_le source w, hv.isBoundary,
      (hv.trans hw).isBoundary⟩
  exact hstep.bind_ok fun _ => hf

theorem reach {z : Read Text} (h : ∀ rest, z = .ok rest → Ahead source rest) :
    Keeps (Ahead source) (Traced.reach source z) z := by
  cases z with
  | error e => exact error e
  | ok rest => exact (lift h).bind_ok fun hrest => come hrest (pure hrest)

/-- Where a reading ends that leaves `rest`. -/
theorem arrive {a : α} (h : Ahead source rest) :
    Keeps (Leaves source) (Traced.come source rest >>= fun _ => Pure.pure (a, rest)) (.ok (a, rest)) :=
  come h (pure h)

end Keeps

end PhpClass
