import Mathlib.Data.List.Induction
import PhpClass.Proofs.Part

/-!
# Nested brackets

What the brackets of code say, apart from how they are read.

* A word of brackets can be paired (`Paired`), or some of its brackets are still open (`Owes`). The stack machine
  that matches brackets ends with exactly the closers of the open ones (`owes_iff`).
* A block is a paired word that no shorter one begins: a bracket, a paired word, and the partner of the bracket
  (`isBlock_iff`). In a beginning of a block that is not the whole of it some bracket is open (`isUnclosed_iff`).
* Where brackets are only counted, a place is inside brackets if some stretch in front of it has more opening brackets
  than closing ones (`Nested`). This is what a counter says that never falls below zero (`nested_iff`).
-/

namespace PhpClass

open Text

namespace Byte

/-- A bracket. -/
def isBracket (b : UInt8) : Bool := isOpener b || isCloser b

theorem isBracket_of_closer? {o c : UInt8} (h : closer? o = some c) :
    isBracket o = true ∧ isBracket c = true := by
  have hc := Scan.isCloser_of_closer? o c h
  simp [isBracket, isOpener, h, hc]

theorem isCloser_of_isOpener : ∀ b, isOpener b = true → isCloser b = false := forall_of_fin (by decide +kernel)

end Byte

namespace Scan

/-! ## Paired words -/

/-- Words of brackets in which each bracket has its partner. -/
inductive Paired : Text → Prop
  | nil : Paired []
  | block {o c : UInt8} {u v : Text} (h : Byte.closer? o = some c) (hu : Paired u) (hv : Paired v) :
      Paired (o :: (u ++ c :: v))

theorem Paired.append {u v : Text} (hu : Paired u) (hv : Paired v) : Paired (u ++ v) := by
  induction hu with
  | nil => exact hv
  | block h hx _ _ ih =>
    rw [List.cons_append, List.append_assoc, List.cons_append]
    exact .block h hx ih

theorem Paired.enclosed {o c : UInt8} {u : Text} (h : Byte.closer? o = some c) (hu : Paired u) :
    Paired (o :: (u ++ [c])) := .block h hu .nil

theorem Paired.within {w : Text} (h : Paired w) : Within Byte.isBracket w := by
  induction h with
  | nil => exact within_nil _
  | block h _ _ hu hv =>
    obtain ⟨ho, hc⟩ := Byte.isBracket_of_closer? h
    rw [within_cons, within_append, within_cons]
    exact ⟨ho, hu, hc, hv⟩

/-- The brackets of a word that are still open, the innermost first, each by the closer that it waits for. -/
inductive Owes : Text → List UInt8 → Prop
  | paired {v : Text} (hv : Paired v) : Owes v []
  | opened {x v : Text} {o c : UInt8} {owed : List UInt8} (hx : Owes x owed) (h : Byte.closer? o = some c)
      (hv : Paired v) : Owes (x ++ o :: v) (c :: owed)

theorem Owes.append {w v : Text} {owed : List UInt8} (h : Owes w owed) (hv : Paired v) : Owes (w ++ v) owed := by
  cases h with
  | paired hw => exact .paired (hw.append hv)
  | opened hx ho hu =>
    rw [List.append_assoc, List.cons_append]
    exact .opened hx ho (hu.append hv)

/-- A bracket in front of the word is open further out than all of its brackets. -/
theorem Owes.cons {w : Text} {owed : List UInt8} {o c : UInt8} (ho : Byte.closer? o = some c) (h : Owes w owed) :
    Owes (o :: w) (owed ++ [c]) := by
  induction h with
  | @paired v hv => exact .opened (x := []) (.paired .nil) ho hv
  | opened _ hd hv ih => exact .opened ih hd hv

theorem Owes.isCloser {w : Text} {owed : List UInt8} (h : Owes w owed) : ∀ c ∈ owed, Byte.isCloser c = true := by
  induction h with
  | paired => intro c hc; cases hc
  | @opened _ _ o c _ _ ho _ ih =>
    intro d hd
    rcases List.mem_cons.1 hd with rfl | hd
    · exact isCloser_of_closer? o d ho
    · exact ih d hd

/-! ## The stack machine on words -/

/-- All that a byte does to the closers owed. -/
theorem oweByte_eq_some {owed owed' : List UInt8} {b : UInt8} : oweByte owed b = some owed' ↔
    (∃ c, Byte.closer? b = some c ∧ owed' = c :: owed) ∨ (Byte.isCloser b = true ∧ owed = b :: owed') ∨
      (Byte.isBracket b = false ∧ owed' = owed) := by
  unfold oweByte Byte.isBracket Byte.isOpener
  cases hopen : Byte.closer? b with
  | some c =>
    have hclose : Byte.isCloser b = false := Byte.isCloser_of_isOpener b (by simp [Byte.isOpener, hopen])
    simp [hclose, eq_comm]
  | none =>
    cases hclose : Byte.isCloser b with
    | false => simp [eq_comm]
    | true =>
      cases owed with
      | nil => simp
      | cons c owed => simp [eq_comm]

theorem oweByte_opener {o c : UInt8} (h : Byte.closer? o = some c) (owed : List UInt8) :
    oweByte owed o = some (c :: owed) := oweByte_eq_some.2 (.inl ⟨c, h, rfl⟩)

theorem oweByte_closer {c : UInt8} (h : Byte.isCloser c = true) (owed : List UInt8) :
    oweByte (c :: owed) c = some owed := oweByte_eq_some.2 (.inr (.inl ⟨h, rfl⟩))

theorem oweByte_other {b : UInt8} (h : Byte.isBracket b = false) (owed : List UInt8) :
    oweByte owed b = some owed := oweByte_eq_some.2 (.inr (.inr ⟨h, rfl⟩))

theorem Paired.foldlM {w : Text} (h : Paired w) (owed : List UInt8) : w.foldlM oweByte owed = some owed := by
  induction h generalizing owed with
  | nil => rfl
  | @block o c u v h _ _ hu hv =>
    rw [List.foldlM_cons, oweByte_opener h, Option.bind_eq_bind, Option.bind_some, List.foldlM_append, hu,
      Option.bind_eq_bind, Option.bind_some, List.foldlM_cons, oweByte_closer (isCloser_of_closer? o c h)]
    exact hv owed

theorem Owes.foldlM {w : Text} {owed : List UInt8} (h : Owes w owed) : w.foldlM oweByte [] = some owed := by
  induction h with
  | paired hv => exact hv.foldlM []
  | opened _ ho hv ih =>
    rw [List.foldlM_append, ih, Option.bind_eq_bind, Option.bind_some, List.foldlM_cons, oweByte_opener ho]
    exact hv.foldlM _

/-- The machine ends with the closers that the open brackets wait for. -/
theorem owes_iff {w : Text} {owed : List UInt8} (hw : Within Byte.isBracket w) :
    Owes w owed ↔ w.foldlM oweByte [] = some owed := by
  refine ⟨Owes.foldlM, fun h => ?_⟩
  induction w using List.reverseRecOn generalizing owed with
  | nil => cases h; exact .paired .nil
  | append_singleton w b ih =>
    rw [within_append, within_cons] at hw
    rw [List.foldlM_append] at h
    obtain ⟨o, ho, hlast⟩ := Option.bind_eq_some_iff.1 h
    obtain ⟨_, hb, he⟩ := Option.bind_eq_some_iff.1 hlast
    cases he
    rcases oweByte_eq_some.1 hb with ⟨c, hc, rfl⟩ | ⟨hclose, rfl⟩ | ⟨hno, -⟩
    · exact .opened (ih hw.1 ho) hc .nil
    · -- the bracket that was the innermost open one and its partner are a paired word
      cases ih hw.1 ho with
      | opened hx hopen hv =>
        rw [List.append_assoc, List.cons_append]
        exact hx.append (hv.enclosed hopen)
    · rw [hno] at hw
      cases hw.2.1

theorem paired_iff {w : Text} (hw : Within Byte.isBracket w) : Paired w ↔ w.foldlM oweByte [] = some [] := by
  rw [← owes_iff hw]
  constructor
  · exact .paired
  · intro h
    cases h with
    | paired hv => exact hv

theorem Owes.unique {w : Text} {owed owed' : List UInt8} (h : Owes w owed) (h' : Owes w owed') : owed = owed' :=
  Option.some.inj (h.foldlM.symm.trans h'.foldlM)

theorem Owes.within {w : Text} {owed : List UInt8} (h : Owes w owed) : Within Byte.isBracket w := by
  induction h with
  | paired hv => exact hv.within
  | opened _ ho hv ih =>
    rw [within_append, within_cons]
    exact ⟨ih, (Byte.isBracket_of_closer? ho).1, hv.within⟩

/-- A word with open brackets is paired with the closers that they wait for. -/
theorem Owes.paid {w : Text} {owed : List UInt8} (h : Owes w owed) : Paired (w ++ owed) := by
  have hpay : ∀ os : List UInt8, (∀ c ∈ os, Byte.isCloser c = true) → os.foldlM oweByte os = some [] := by
    intro os hos
    induction os with
    | nil => rfl
    | cons c os ih =>
      rw [List.foldlM_cons, oweByte_closer (hos c List.mem_cons_self)]
      exact ih fun d hd => hos d (List.mem_cons_of_mem c hd)
  have hwithin : Within Byte.isBracket owed := by
    intro c hc
    simp [Byte.isBracket, h.isCloser c hc]
  rw [paired_iff (within_append.2 ⟨h.within, hwithin⟩), List.foldlM_append, h.foldlM]
  exact hpay owed h.isCloser

/-! ## Blocks -/

/-- A paired word that no shorter one begins. -/
structure IsBlock (w : Text) : Prop where
  paired : Paired w
  ne_nil : w ≠ []
  least : ∀ v, v <+: w → v ≠ [] → Paired v → v = w

/-- A beginning of a block that is not the whole block. Some bracket is open behind it. -/
def IsUnclosed (u : Text) : Prop := u ≠ [] ∧ ∃ w, IsBlock w ∧ u <+: w ∧ u ≠ w

/-- The closer of the innermost bracket that is still open. -/
def Awaits (u : Text) (c : UInt8) : Prop := ∃ owed, Owes u (c :: owed)

/-- A proper beginning of a bracket, a paired word and the partner of the bracket. -/
theorem exists_owes_of_prefix {o c : UInt8} {u v : Text} (hu : Paired u) (hv : v <+: o :: (u ++ [c]))
    (hne : v ≠ []) (hproper : v ≠ o :: (u ++ [c])) : ∃ x owed, Owes x owed ∧ v = o :: x := by
  rcases List.prefix_cons_iff.1 hv with rfl | ⟨x, rfl, hx⟩
  · exact absurd rfl hne
  · have hxu : x <+: u := by
      rcases List.prefix_concat_iff.1 hx with rfl | hx
      · exact absurd rfl hproper
      · exact hx
    obtain ⟨y, rfl⟩ := hxu
    have hpaired := hu.foldlM []
    rw [List.foldlM_append] at hpaired
    obtain ⟨owed, ho, -⟩ := Option.bind_eq_some_iff.1 hpaired
    exact ⟨x, owed, (owes_iff (within_append.1 hu.within).1).2 ho, rfl⟩

theorem isBlock_iff {w : Text} :
    IsBlock w ↔ ∃ o c u, Byte.closer? o = some c ∧ Paired u ∧ w = o :: (u ++ [c]) := by
  constructor
  · rintro ⟨hpaired, hne, hleast⟩
    cases hpaired with
    | nil => exact absurd rfl hne
    | @block o c u v h hu _ =>
      have hfirst : o :: (u ++ [c]) <+: o :: (u ++ c :: v) := ⟨v, by simp⟩
      exact ⟨o, c, u, h, hu, (hleast _ hfirst (List.cons_ne_nil _ _) (hu.enclosed h)).symm⟩
  · rintro ⟨o, c, u, h, hu, rfl⟩
    refine ⟨hu.enclosed h, List.cons_ne_nil _ _, fun v hv hne hpaired => ?_⟩
    by_contra hproper
    obtain ⟨x, owed, hx, rfl⟩ := exists_owes_of_prefix hu hv hne hproper
    -- the outermost bracket is still open
    have hnone := (hx.cons h).unique (.paired hpaired)
    simp at hnone

theorem isUnclosed_iff {u : Text} :
    IsUnclosed u ↔ ∃ o c v owed, Byte.closer? o = some c ∧ Owes v owed ∧ u = o :: v := by
  constructor
  · rintro ⟨hne, w, hw, hprefix, hproper⟩
    obtain ⟨o, c, x, h, hx, rfl⟩ := isBlock_iff.1 hw
    obtain ⟨v, owed, hv, rfl⟩ := exists_owes_of_prefix hx hprefix hne hproper
    exact ⟨o, c, v, owed, h, hv, rfl⟩
  · rintro ⟨o, c, v, owed, h, hv, rfl⟩
    refine ⟨List.cons_ne_nil _ _, o :: (v ++ owed ++ [c]), isBlock_iff.2 ⟨o, c, _, h, hv.paid, rfl⟩, ?_, ?_⟩
    · exact ⟨owed ++ [c], by simp⟩
    · intro he
      simpa using congrArg List.length he

/-- A block is its beginning up to the last bracket, behind which only that is owed. -/
theorem isBlock_concat_iff {u : Text} {c : UInt8} : IsBlock (u ++ [c]) ↔ IsUnclosed u ∧ Owes u [c] := by
  rw [isBlock_iff, isUnclosed_iff]
  constructor
  · rintro ⟨o, d, v, h, hv, he⟩
    rw [← List.cons_append] at he
    obtain ⟨rfl, hlast⟩ := List.append_inj' he rfl
    cases hlast
    exact ⟨⟨o, c, v, [], h, .paired hv, rfl⟩, Owes.cons h (.paired hv)⟩
  · rintro ⟨⟨o, d, v, owed, h, hv, rfl⟩, howes⟩
    have hall := (hv.cons h).unique howes
    cases owed with
    | nil =>
      cases hall
      cases hv with
      | paired hv => exact ⟨o, c, v, h, hv, rfl⟩
    | cons x owed => simp at hall

theorem IsUnclosed.exists_owes {u : Text} (h : IsUnclosed u) : ∃ c owed, Owes u (c :: owed) := by
  obtain ⟨o, c, v, owed, hc, hv, rfl⟩ := isUnclosed_iff.1 h
  have howes := hv.cons hc
  cases owed with
  | nil => exact ⟨c, [], howes⟩
  | cons d owed => exact ⟨d, owed ++ [c], howes⟩

theorem Owes.awaits_iff {u : Text} {owed : List UInt8} (h : Owes u owed) {c : UInt8} :
    Awaits u c ↔ owed.head? = some c := by
  constructor
  · rintro ⟨more, hmore⟩
    rw [h.unique hmore]
    rfl
  · intro hc
    obtain ⟨more, rfl⟩ := List.head?_eq_some_iff.1 hc
    exact ⟨more, h⟩

/-! ## The brackets of code -/

/-- The brackets of a stretch of code. A string and a comment have none. -/
def Token.brackets (k : Token) : Text := if k.kind = .byte then k.text.filter Byte.isBracket else []

/-- The brackets of code outside strings and comments. -/
def brackets (ks : List Token) : Text := ks.flatMap Token.brackets

@[simp] theorem brackets_cons (k : Token) (ks : List Token) : brackets (k :: ks) = k.brackets ++ brackets ks :=
  List.flatMap_cons

theorem brackets_byte {b : UInt8} (h : Byte.isBracket b = true) : (⟨.byte, [b]⟩ : Token).brackets = [b] := by
  simp [Token.brackets, h]

theorem within_brackets (ks : List Token) : Within Byte.isBracket (brackets ks) := by
  intro b hb
  obtain ⟨k, -, hk⟩ := List.mem_flatMap.1 hb
  unfold Token.brackets at hk
  split at hk
  · exact (List.mem_filter.1 hk).2
  · cases hk

theorem foldlM_oweByte_filter (w : Text) (owed : List UInt8) :
    (w.filter Byte.isBracket).foldlM oweByte owed = w.foldlM oweByte owed := by
  induction w generalizing owed with
  | nil => rfl
  | cons b w ih =>
    cases hb : Byte.isBracket b with
    | true =>
      rw [List.filter_cons_of_pos hb, List.foldlM_cons, List.foldlM_cons]
      exact congrArg (oweByte owed b).bind (funext ih)
    | false =>
      rw [List.filter_cons_of_neg (by simp [hb]), List.foldlM_cons, oweByte_other hb]
      exact ih owed

theorem owe_eq_foldlM (k : Token) (owed : List UInt8) : owe owed k = k.brackets.foldlM oweByte owed := by
  unfold Token.brackets
  split
  · next hk =>
    rw [foldlM_oweByte_filter, owe, hk]
  · next hk =>
    exact owe_of_ne hk owed

/-- Matching looks at the brackets of code only. -/
theorem foldlM_owe_eq (ks : List Token) (owed : List UInt8) :
    ks.foldlM owe owed = (brackets ks).foldlM oweByte owed := by
  induction ks generalizing owed with
  | nil => rfl
  | cons k ks ih =>
    rw [List.foldlM_cons, brackets_cons, List.foldlM_append, owe_eq_foldlM]
    exact congrArg (k.brackets.foldlM oweByte owed).bind (funext ih)

theorem owes_brackets {ks : List Token} {owed : List UInt8} :
    Owes (brackets ks) owed ↔ ks.foldlM owe [] = some owed := by
  rw [owes_iff (within_brackets ks), foldlM_owe_eq]

theorem paired_brackets {ks : List Token} : Paired (brackets ks) ↔ Balanced ks := by
  rw [paired_iff (within_brackets ks), Balanced, foldlM_owe_eq]

/-! ## Counted brackets -/

/-- A stretch at the end of the bytes has more opening brackets than closing ones, of any kind. -/
def Nested (w : Text) : Prop := ∃ v, v <:+ w ∧ v.countP Byte.isCloser < v.countP Byte.isOpener

/-- A counter that never falls below zero counts the brackets that are open in the best stretch at the end. -/
theorem lt_foldl_nest_iff {w : Text} {n : Nat} :
    n < w.foldl nest 0 ↔ ∃ v, v <:+ w ∧ v.countP Byte.isCloser + n < v.countP Byte.isOpener := by
  induction w using List.reverseRecOn generalizing n with
  | nil => simp
  | append_singleton w b ih =>
    -- a stretch at the end that counts for something goes back behind the last byte
    have hlast : (∃ v, v <:+ w ++ [b] ∧ v.countP Byte.isCloser + n < v.countP Byte.isOpener) ↔
        ∃ v, v <:+ w ∧ (v ++ [b]).countP Byte.isCloser + n < (v ++ [b]).countP Byte.isOpener := by
      constructor
      · rintro ⟨v, hv, hn⟩
        rcases List.suffix_concat_iff.1 hv with rfl | ⟨u, rfl, hu⟩
        · simp at hn
        · exact ⟨u, hu, hn⟩
      · rintro ⟨u, ⟨x, rfl⟩, hn⟩
        exact ⟨u ++ [b], ⟨x, by simp⟩, hn⟩
    rw [hlast, List.foldl_append, List.foldl_cons, List.foldl_nil, nest]
    simp only [List.countP_append, List.countP_singleton]
    cases hopen : Byte.isOpener b with
    | true =>
      have hclose := Byte.isCloser_of_isOpener b hopen
      simp only [hclose, if_true, Bool.false_eq_true, if_false]
      cases n with
      | zero => exact ⟨fun _ => ⟨[], List.nil_suffix, by simp⟩, fun _ => Nat.succ_pos _⟩
      | succ n =>
        rw [Nat.add_lt_add_iff_right, ih]
        exact exists_congr fun v => and_congr_right fun _ => by omega
    | false =>
      cases hclose : Byte.isCloser b with
      | true =>
        simp only [if_true, Bool.false_eq_true, if_false]
        rw [Nat.lt_sub_iff_add_lt, ih]
        exact exists_congr fun v => and_congr_right fun _ => by omega
      | false =>
        simp only [Bool.false_eq_true, if_false]
        rw [ih]
        exact exists_congr fun v => and_congr_right fun _ => by omega

theorem nested_iff {w : Text} : Nested w ↔ w.foldl nest 0 ≠ 0 := by
  rw [← Nat.pos_iff_ne_zero, lt_foldl_nest_iff]
  rfl

/-- The bytes of code outside strings and comments. -/
def codeBytes (ks : List Token) : Text := ks.flatMap fun k => if k.kind = .byte then k.text else []

@[simp] theorem codeBytes_cons (k : Token) (ks : List Token) :
    codeBytes (k :: ks) = (if k.kind = .byte then k.text else []) ++ codeBytes ks := List.flatMap_cons

theorem codeBytes_append (js ks : List Token) : codeBytes (js ++ ks) = codeBytes js ++ codeBytes ks :=
  List.flatMap_append

/-- Brackets are counted in the bytes of code only. -/
theorem foldl_nest_codeBytes (ks : List Token) (depth : Nat) :
    (codeBytes ks).foldl nest depth = ks.foldl (fun depth k => k.nest depth) depth := by
  induction ks generalizing depth with
  | nil => rfl
  | cons k ks ih =>
    rw [codeBytes_cons, List.foldl_append, List.foldl_cons, ih]
    congr 1
    by_cases hk : k.kind = .byte
    · rw [if_pos hk, Token.nest, hk]
    · rw [if_neg hk, nest_of_ne hk]
      rfl

end Scan

end PhpClass
