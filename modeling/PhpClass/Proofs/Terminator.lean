import Mathlib.Data.Nat.Find
import PhpClass.Proofs.Nesting
import PhpClass.Proofs.Span
import PhpClass.Proofs.Statement

/-!
# The first terminator at the top level

A search for a terminator reads its text in units: whole strings, if it looks out for them, and single bytes
(`IsUnit`). A terminator is at the top level if the bytes of code between the start of the search and the terminator
do not leave it inside brackets (`TopLevel`).

The search ends at the first terminator at the top level. If there is none, it ends where the text does, or at a
string without its end (`Finds`, `terminatorAt_eq_iff`).
-/

namespace PhpClass

open Text

namespace Scan

/-- What a search for a terminator passes over at once. Strings are told apart from code only on request. -/
inductive IsUnit (strings : Bool) : Token → Prop
  | quoted {quote : UInt8} {s : Text} (hstrings : strings = true) (hquote : Byte.isQuote quote = true)
      (hs : StringRest quote s) : IsUnit strings ⟨.quoted, quote :: s⟩
  | byte {b : UInt8} (hb : (strings && Byte.isQuote b) = false) : IsUnit strings ⟨.byte, [b]⟩

/-- From one place of a source up to another stand these units. -/
structure UnitsBetween (strings : Bool) (source : Text) (start stop : Nat) (ks : List Token) : Prop extends
    Between source start stop (code ks) where
  units : ∀ k ∈ ks, IsUnit strings k

/-- At the place there is a terminator, outside strings, and the code from the start of the search on does not leave
it inside brackets. -/
def TopLevel (strings : Bool) (terminator : UInt8) (source : Text) (start place : Nat) : Prop :=
  ∃ ks, UnitsBetween strings source start place ks ∧ source[place]? = some terminator ∧ ¬Nested (codeBytes ks)

/-- What a search for a terminator says. -/
inductive Finds (strings : Bool) (terminator : UInt8) (source : Text) (start : Nat) : Except ScanError Nat → Prop
  /-- The first terminator at the top level. -/
  | first {p : Nat} (hp : TopLevel strings terminator source start p)
      (hfirst : ∀ q, TopLevel strings terminator source start q → p ≤ q) : Finds strings terminator source start (.ok p)
  /-- There is none, and every string has its end. -/
  | missing {ks : List Token} (hno : ∀ q, ¬TopLevel strings terminator source start q)
      (hks : UnitsBetween strings source start source.length ks) :
      Finds strings terminator source start (.error ⟨.expected terminator, source.length⟩)
  /-- There is none in front of a string without its end. -/
  | unclosed {ks : List Token} {q : Nat} (hno : ∀ q, ¬TopLevel strings terminator source start q)
      (hstrings : strings = true) (hks : UnitsBetween strings source start q ks)
      (hq : UnclosedString (source.drop q)) : Finds strings terminator source start (.error ⟨.unclosedString, q⟩)

variable {strings : Bool} {terminator : UInt8} {source : Text} {start stop : Nat} {ks : List Token}

/-! ## Units -/

/-- A search passes over units in which it meets no terminator with no bracket open. -/
theorem passes_units (hks : ∀ k ∈ ks, IsUnit strings k) {depth : Nat}
    (h : ∀ js more, ks = js ++ ⟨.byte, [terminator]⟩ :: more → (codeBytes js).foldl nest depth ≠ 0) :
    Passes strings terminator (code ks) depth ((codeBytes ks).foldl nest depth) := by
  induction ks generalizing depth with
  | nil => exact .nil
  | cons k ks ih =>
    have hrest := fun l hl => hks l (List.mem_cons_of_mem k hl)
    have hgo : Passes strings terminator (code ks) ((codeBytes [k]).foldl nest depth)
        ((codeBytes (k :: ks)).foldl nest depth) := by
      rw [show k :: ks = [k] ++ ks from rfl, codeBytes_append, List.foldl_append]
      apply ih hrest
      intro js more he
      rw [← List.foldl_append, ← codeBytes_append]
      exact h ([k] ++ js) more (by rw [he]; rfl)
    rw [code_cons]
    cases hks k List.mem_cons_self with
    | quoted hstrings hquote hs =>
      have hend := hs.afterQuote_append hquote []
      rw [List.append_nil] at hend
      exact .quoted (by simp [hstrings, hquote]) hend hgo
    | @byte b hb =>
      refine .byte hb ?_ hgo
      rintro ⟨hzero, rfl⟩
      exact h [] ks rfl hzero

/-- A text begins with these units. -/
structure Units (strings : Bool) (t : Text) (ks : List Token) (rest : Text) : Prop where
  eq : t = code ks ++ rest
  units : ∀ k ∈ ks, IsUnit strings k

theorem Units.cons {t rest : Text} {k : Token} (hk : IsUnit strings k) (h : Units strings t ks rest) :
    Units strings (k.text ++ t) (k :: ks) rest where
  eq := by rw [h.eq, code_cons, List.append_assoc]
  units := List.forall_mem_cons.2 ⟨hk, h.units⟩

/-- A text is units up to its end, or up to a string without its end. -/
theorem exists_units (strings : Bool) (t : Text) : ∃ ks rest, Units strings t ks rest ∧
    (rest = [] ∨ strings = true ∧ UnclosedString rest) := by
  induction hn : t.length using Nat.strongRecOn generalizing t with
  | ind n ih =>
    subst hn
    cases t with
    | nil => exact ⟨[], [], ⟨rfl, List.forall_mem_nil _⟩, .inl rfl⟩
    | cons b u =>
      cases hb : strings && Byte.isQuote b with
      | false =>
        obtain ⟨ks, rest, hks, hrest⟩ := ih u.length (Nat.lt_succ_self _) u rfl
        exact ⟨_, rest, hks.cons (.byte hb), hrest⟩
      | true =>
        obtain ⟨hstrings, hquote⟩ := Bool.and_eq_true_iff.1 hb
        cases hend : afterQuote b u with
        | none =>
          have hopen : UnclosedString (b :: u) := ⟨b, u, rfl, hquote, (afterQuote_eq_none_iff hquote).1 hend⟩
          exact ⟨[], b :: u, ⟨rfl, List.forall_mem_nil _⟩, .inr ⟨hstrings, hopen⟩⟩
        | some t =>
          have hlt : t.length < (b :: u).length := Nat.lt_succ_of_le (afterQuote_suffix hend).length_le
          obtain ⟨ks, rest, hks, hrest⟩ := ih t.length hlt t rfl
          obtain ⟨s, hs, rfl⟩ := (afterQuote_eq_some_iff hquote).1 hend
          exact ⟨_, rest, hks.cons (.quoted hstrings hquote hs), hrest⟩

/-! ## Results at places -/

/-- Units up to a place make the search go on there, if no terminator at the top level is in front of it. -/
theorem UnitsBetween.passes (hks : UnitsBetween strings source start stop ks)
    (hno : ∀ q, TopLevel strings terminator source start q → stop ≤ q) :
    Passes strings terminator (code ks) 0 ((codeBytes ks).foldl nest 0) := by
  apply passes_units hks.units
  intro js more he hzero
  have hdrop := hks.drop_eq
  rw [he, code_append, List.append_assoc, code_cons, List.append_assoc] at hdrop
  obtain ⟨hjs, hhere⟩ := Between.of_drop (Nat.le_trans hks.le hks.stop_le) hdrop
  have hunits : ∀ k ∈ js, IsUnit strings k := by
    intro k hk
    apply hks.units
    rw [he]
    exact List.mem_append_left _ hk
  have hlater := hno _ ⟨js, ⟨hjs, hunits⟩, getElem?_of_drop hhere, fun h => nested_iff.1 h hzero⟩
  -- but the terminator is in front of the place
  have hstop := hks.stop_eq
  rw [he, code_append, code_cons, List.length_append, List.length_append, List.length_singleton] at hstop
  omega

theorem terminatorAt_of_error {cause : ScanCause} {left : Nat} (hstop : stop ≤ source.length)
    (hleft : left = source.length - stop)
    (h : afterTerminator strings terminator 0 (source.drop start) = .error ⟨cause, left⟩) :
    terminatorAt strings terminator source start = .error ⟨cause, stop⟩ := by
  rw [terminatorAt, fromOffset_eq_error hstop hleft h]
  rfl

/-- What the search says is what it says at a place that no terminator at the top level is in front of. -/
theorem UnitsBetween.afterTerminator_eq (hks : UnitsBetween strings source start stop ks)
    (hno : ∀ q, TopLevel strings terminator source start q → stop ≤ q) :
    afterTerminator strings terminator 0 (source.drop start) =
      afterTerminator strings terminator ((codeBytes ks).foldl nest 0) (source.drop stop) := by
  rw [hks.drop_eq]
  exact (hks.passes hno).afterTerminator _

/-- A terminator at the top level is found if there is none in front of it. -/
theorem Finds.terminatorAt_eq (hq : (strings && Byte.isQuote terminator) = false) {r : Except ScanError Nat}
    (h : Finds strings terminator source start r) : terminatorAt strings terminator source start = r := by
  cases h with
  | @first p hp hfirst =>
    obtain ⟨ks, hks, hhere, hnest⟩ := hp
    obtain ⟨hlt, hdrop⟩ := exists_drop_of_getElem? hhere
    have hread := hks.afterTerminator_eq hfirst
    rw [not_not.1 (nested_iff.not.1 hnest), hdrop, afterTerminator_here hq] at hread
    have hoffset : offsetOf source (terminator :: source.drop (p + 1)) = p := by
      rw [offsetOf, ← hdrop, List.length_drop]
      omega
    rw [terminatorAt, fromOffset, hread]
    exact congrArg Except.ok hoffset
  | @missing ks hno hks =>
    have hread := hks.afterTerminator_eq fun q hq => absurd hq (hno q)
    rw [List.drop_length, afterTerminator] at hread
    exact terminatorAt_of_error (Nat.le_refl _) (Nat.sub_self _).symm hread
  | @unclosed ks q hno hstrings hks hopen =>
    have hread := hks.afterTerminator_eq fun q hq => absurd hq (hno q)
    obtain ⟨quote, u, hdrop, hquote, hend⟩ := hopen
    rw [hdrop, afterTerminator, if_pos (by simp [hstrings, hquote])] at hread
    split at hread
    · next rest hsome =>
      rw [(afterQuote_eq_none_iff hquote).2 hend] at hsome
      cases hsome
    · exact terminatorAt_of_error hks.stop_le (by rw [← List.length_drop, hdrop]; rfl) hread

/-- There is always something that the search says. -/
theorem exists_finds (strings : Bool) (terminator : UInt8) (hle : start ≤ source.length) :
    ∃ r, Finds strings terminator source start r := by
  by_cases hsome : ∃ q, TopLevel strings terminator source start q
  · classical
    exact ⟨_, .first (Nat.find_spec hsome) fun q hq => Nat.find_min' hsome hq⟩
  · have hno := not_exists.1 hsome
    obtain ⟨ks, rest, hks, hrest⟩ := exists_units strings (source.drop start)
    obtain ⟨hbetween, hdrop⟩ := Between.of_drop hle hks.eq
    rcases hrest with rfl | ⟨hstrings, hopen⟩
    · have hend : start + (code ks).length = source.length :=
        Nat.le_antisymm hbetween.stop_le (List.drop_eq_nil_iff.1 hdrop)
      exact ⟨_, .missing hno ⟨hend ▸ hbetween, hks.units⟩⟩
    · exact ⟨_, .unclosed hno hstrings ⟨hbetween, hks.units⟩ (hdrop ▸ hopen)⟩

/-- **The search ends at the first terminator at the top level**, or says why there is none. -/
theorem terminatorAt_eq_iff (hle : start ≤ source.length) (hq : (strings && Byte.isQuote terminator) = false)
    {r : Except ScanError Nat} :
    terminatorAt strings terminator source start = r ↔ Finds strings terminator source start r := by
  constructor
  · rintro rfl
    obtain ⟨r, hr⟩ := exists_finds strings terminator hle
    rw [hr.terminatorAt_eq hq]
    exact hr
  · exact Finds.terminatorAt_eq hq

/-- Neither the terminator in the brackets nor the ones in strings are at the top level. -/
theorem finds_behind_brackets : (true && Byte.isQuote (ascii ';')) = false ∧
    Finds true (ascii ';') (utf8 "(; ';') ';' ;") 0 (.ok 12) := by
  have hquote : (true && Byte.isQuote (ascii ';')) = false := by decide
  have hread : terminatorAt true (ascii ';') (utf8 "(; ';') ';' ;") 0 = .ok 12 := by decide +kernel
  exact ⟨hquote, (terminatorAt_eq_iff (Nat.zero_le _) hquote).1 hread⟩

end Scan

end PhpClass
