import PhpClass.Proofs.Lines
import PhpClass.Proofs.Token
import PhpClass.Scan.Offset

/-!
# Stretches of code in a source

* `Between`: what stands between two places of a source, and `CodeBetween`: what stands there as code, when strings
  and comments are taken as a whole.
* `StringRest`: how a string goes on behind its quote. A scanner passes over a string to the first place where it can
  end (`afterQuote_eq_some_iff`), and it stops at a string or a comment exactly if that has no end (`lexeme_eq_error`).
-/

namespace PhpClass

open Text

namespace Scan

/-! ## Places -/

/-- From one place of a source up to another stands a text. -/
structure Between (source : Text) (start stop : Nat) (t : Text) : Prop where
  le : start ≤ stop
  stop_le : stop ≤ source.length
  eq : (source.take stop).drop start = t

variable {source t rest : Text} {start stop : Nat}

theorem Between.drop_eq (h : Between source start stop t) : source.drop start = t ++ source.drop stop := by
  have hlength : start ≤ (source.take stop).length := by
    rw [List.length_take, Nat.min_eq_left h.stop_le]
    exact h.le
  conv => lhs; rw [← List.take_append_drop stop source, List.drop_append_of_le_length hlength, h.eq]

theorem Between.stop_eq (h : Between source start stop t) : stop = start + t.length := by
  have hlength := congrArg List.length h.drop_eq
  have hle := h.le
  have hstop := h.stop_le
  rw [List.length_append, List.length_drop, List.length_drop] at hlength
  omega

theorem Between.of_drop (hle : start ≤ source.length) (h : source.drop start = t ++ rest) :
    Between source start (start + t.length) t ∧ source.drop (start + t.length) = rest := by
  have hlength := congrArg List.length h
  rw [List.length_append, List.length_drop] at hlength
  refine ⟨⟨by omega, by omega, ?_⟩, ?_⟩
  · rw [List.drop_take, h, Nat.add_sub_cancel_left, List.take_left]
  · rw [← List.drop_drop, h, List.drop_left]

theorem getElem?_of_drop {b : UInt8} (h : source.drop stop = b :: rest) : source[stop]? = some b := by
  have hhead := congrArg List.head? h
  rwa [List.head?_drop, List.head?_cons] at hhead

theorem exists_drop_of_getElem? {b : UInt8} (h : source[stop]? = some b) :
    stop < source.length ∧ source.drop stop = b :: source.drop (stop + 1) := by
  obtain ⟨hlt, rfl⟩ := List.getElem?_eq_some_iff.1 h
  exact ⟨hlt, List.drop_eq_getElem_cons hlt⟩

/-- From one place of a source up to another stands code: these tokens, each of which is complete. -/
structure CodeBetween (source : Text) (start stop : Nat) (ks : List Token) : Prop extends
    Between source start stop (code ks) where
  lexes : Lexes ks (source.drop stop)

theorem CodeBetween.of_drop {ks : List Token} (hle : start ≤ source.length) (h : source.drop start = code ks ++ rest)
    (hks : Lexes ks rest) : CodeBetween source start (start + (code ks).length) ks ∧
      source.drop (start + (code ks).length) = rest := by
  obtain ⟨hbetween, hrest⟩ := Between.of_drop hle h
  exact ⟨⟨hbetween, hrest ▸ hks⟩, hrest⟩

/-- A fault is reported at the place behind which the scanner left its text. -/
theorem fromOffset_eq_error {α : Type} {scan : Text → Scan α} {cause : ScanCause} {left : Nat}
    (hstop : stop ≤ source.length) (hleft : left = source.length - stop)
    (h : scan (source.drop start) = .error ⟨cause, left⟩) :
    fromOffset source start scan = .error ⟨cause, stop⟩ := by
  have hoffset : source.length - left = stop := by omega
  rw [fromOffset, h, ← hoffset]
  rfl

/-! ## Strings and comments -/

/-- What can follow the opening quote of a string, up to its closing quote. A backslash hides the byte after it. -/
inductive StringRest (quote : UInt8) : Text → Prop
  | close : StringRest quote [quote]
  | escape {b : UInt8} {s : Text} (hs : StringRest quote s) : StringRest quote (Byte.backslash :: b :: s)
  | other {b : UInt8} {s : Text} (hquote : b ≠ quote) (hslash : b ≠ Byte.backslash) (hs : StringRest quote s) :
      StringRest quote (b :: s)

theorem backslash_ne {quote : UInt8} (h : Byte.isQuote quote = true) : Byte.backslash ≠ quote := by
  rintro rfl
  cases h

theorem StringRest.afterQuote_append {quote : UInt8} {s : Text} (hq : Byte.isQuote quote = true)
    (h : StringRest quote s) (rest : Text) : afterQuote quote (s ++ rest) = some rest := by
  induction h with
  | close => exact afterQuote_quote quote rest
  | escape _ ih => exact (afterQuote_escape (backslash_ne hq) _ _).trans ih
  | other hquote hslash _ ih => exact (afterQuote_other hquote hslash _).trans ih

theorem afterQuote_eq_some_iff {quote : UInt8} (hq : Byte.isQuote quote = true) :
    afterQuote quote t = some rest ↔ ∃ s, StringRest quote s ∧ t = s ++ rest := by
  constructor
  · intro h
    fun_induction afterQuote quote t with
    | case1 => cases h
    | case2 => cases h; exact ⟨[quote], .close, rfl⟩
    | case3 => cases h
    | case4 b t hquote ih =>
      obtain ⟨s, hs, rfl⟩ := ih h
      exact ⟨Byte.backslash :: b :: s, .escape hs, rfl⟩
    | case5 b t hquote hslash ih =>
      obtain ⟨s, hs, rfl⟩ := ih h
      exact ⟨b :: s, .other hquote hslash hs, rfl⟩
  · rintro ⟨s, hs, rfl⟩
    exact hs.afterQuote_append hq rest

theorem afterQuote_eq_none_iff {quote : UInt8} (hq : Byte.isQuote quote = true) :
    afterQuote quote t = none ↔ ∀ s, s <+: t → ¬StringRest quote s := by
  rw [Option.eq_none_iff_forall_ne_some]
  constructor
  · rintro h s ⟨rest, rfl⟩ hs
    exact h rest (hs.afterQuote_append hq rest)
  · intro h rest hrest
    obtain ⟨s, hs, rfl⟩ := (afterQuote_eq_some_iff hq).1 hrest
    exact h s (List.prefix_append s rest) hs

/-- The text begins with a quote, and no string that begins there comes to its end. -/
def UnclosedString (t : Text) : Prop :=
  ∃ quote u, t = quote :: u ∧ Byte.isQuote quote = true ∧ ∀ s, s <+: u → ¬StringRest quote s

/-- The text begins a block comment, and the end of that is nowhere behind its beginning. -/
def UnclosedComment (t : Text) : Prop := ∃ inside, t = utf8 "/*" ++ inside ∧ ¬utf8 "*/" <:+: inside

theorem comment?_eq_error {e : Fault ScanCause} :
    comment? t = .error e ↔ UnclosedComment t ∧ e = ⟨.unclosedComment, t.length⟩ := by
  have hcut : ∀ inside, cut? (utf8 "*/") inside = none ↔ ¬utf8 "*/" <:+: inside := by
    intro inside
    rw [← holds_iff, cut?, Option.map_eq_none_iff, holds]
    simp
  unfold comment? UnclosedComment
  constructor
  · intro h
    split at h
    · next inside hi =>
      split at h
      · cases h
      · next hnone =>
        cases h
        exact ⟨⟨inside, after?_eq_some.1 hi, (hcut inside).1 hnone⟩, rfl⟩
    · split at h <;> cases h
  · rintro ⟨⟨inside, rfl, hi⟩, rfl⟩
    rw [after?_append]
    dsimp only
    rw [(hcut inside).2 hi]

/-- A scanner stops at a string or a comment without its end. -/
theorem lexeme_eq_error {b : UInt8} {e : Fault ScanCause} : lexeme b t = .error e ↔
    (UnclosedString (b :: t) ∧ e = ⟨.unclosedString, t.length + 1⟩) ∨
      (UnclosedComment (b :: t) ∧ e = ⟨.unclosedComment, t.length + 1⟩) := by
  have hstring : UnclosedString (b :: t) ↔ Byte.isQuote b = true ∧ afterQuote b t = none := by
    constructor
    · rintro ⟨quote, u, he, hq, hu⟩
      obtain ⟨rfl, rfl⟩ := List.cons.inj he
      exact ⟨hq, (afterQuote_eq_none_iff hq).2 hu⟩
    · rintro ⟨hq, hnone⟩
      exact ⟨b, t, rfl, hq, (afterQuote_eq_none_iff hq).1 hnone⟩
  have hcomment : UnclosedComment (b :: t) → Byte.isQuote b = false := by
    rintro ⟨inside, he, -⟩
    rw [blockStart] at he
    rw [(List.cons.inj he).1]
    rfl
  rw [hstring]
  unfold lexeme
  cases hq : Byte.isQuote b with
  | true =>
    rw [if_pos rfl]
    have hno : ¬UnclosedComment (b :: t) := fun h => by simp [hcomment h] at hq
    cases afterQuote b t <;> simp [hno, eq_comm]
  | false =>
    rw [if_neg Bool.false_ne_true]
    have hfault := comment?_eq_error (t := b :: t) (e := e)
    rw [List.length_cons] at hfault
    simp only [Bool.false_eq_true, false_and, false_or, ← hfault]
    cases comment? (b :: t) with
    | error e' => simp
    | ok found => cases found <;> simp

end Scan

end PhpClass
