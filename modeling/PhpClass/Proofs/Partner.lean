import PhpClass.Proofs.Nesting
import PhpClass.Proofs.Span

/-!
# Matching decides nesting

Matching a bracket comes to its partner exactly if the brackets of the code from the one to the other are a block, that
is, a paired word that no shorter one begins. If it does not, then the code up to the place where it stops is a
beginning of a block with a bracket still open, and the place shows why the block is never closed:

* there is a closing bracket that is not the partner of the innermost open one;
* the source ends;
* there is a string or a comment without its end.

`partnerAt_eq_iff` says so for each result, and `decidesNesting` puts it together for any place, also for one without
an opening bracket.
-/

namespace PhpClass

open Text

namespace Scan

/-- At the place there is an opening bracket. -/
def OpenerAt (source : Text) (start : Nat) : Prop := ∃ o ∈ source[start]?, Byte.isOpener o = true

/-- How a search for the partner of the bracket at a place can end. -/
inductive Ends (source : Text) (start : Nat) : Except ScanError Nat → Prop
  | partner {ks : List Token} {c : UInt8} {p : Nat} (hks : CodeBetween source start p ks) (hc : source[p]? = some c)
      (hblock : IsBlock (brackets ks ++ [c])) : Ends source start (.ok p)
  | mismatch {ks : List Token} {c d : UInt8} {q : Nat} (hks : CodeBetween source start q ks)
      (hopen : IsUnclosed (brackets ks)) (hc : source[q]? = some c) (hclose : Byte.isCloser c = true)
      (hd : Awaits (brackets ks) d) (hne : c ≠ d) : Ends source start (.error ⟨.unexpected c, q⟩)
  | ended {ks : List Token} (hks : CodeBetween source start source.length ks) (hopen : IsUnclosed (brackets ks)) :
      Ends source start (.error ⟨.unclosedBlock, start⟩)
  | string {ks : List Token} {q : Nat} (hks : CodeBetween source start q ks) (hopen : IsUnclosed (brackets ks))
      (hq : UnclosedString (source.drop q)) : Ends source start (.error ⟨.unclosedString, q⟩)
  | comment {ks : List Token} {q : Nat} (hks : CodeBetween source start q ks) (hopen : IsUnclosed (brackets ks))
      (hq : UnclosedComment (source.drop q)) : Ends source start (.error ⟨.unclosedComment, q⟩)

variable {source : Text} {start stop : Nat}

/-! ## The search behind the bracket -/

theorem opener_spec : ∀ o, Byte.isOpener o = true → Byte.isQuote o = false ∧ o ≠ ascii '/' :=
  Byte.forall_of_fin (by decide +kernel)

theorem stands_opener {o c : UInt8} (h : Byte.closer? o = some c) (rest : Text) : Stands ⟨.byte, [o]⟩ rest := by
  obtain ⟨hq, hs⟩ := opener_spec o (by simp [Byte.isOpener, h])
  exact .byte hq (comment?_eq_none_of_ne hs rest)

/-- The brackets from an opening one on. -/
theorem brackets_opener {o c : UInt8} (h : Byte.closer? o = some c) (js : List Token) :
    brackets (⟨.byte, [o]⟩ :: js) = o :: brackets js := by
  rw [brackets_cons, brackets_byte (Byte.isBracket_of_closer? h).1]
  rfl

theorem OpenerAt.exists_drop (h : OpenerAt source start) : ∃ o c, Byte.closer? o = some c ∧
    start < source.length ∧ source.drop start = o :: source.drop (start + 1) := by
  obtain ⟨o, ho, hopen⟩ := h
  obtain ⟨c, hc⟩ := Option.isSome_iff_exists.1 hopen
  exact ⟨o, c, hc, exists_drop_of_getElem? ho⟩

/-- Code that begins at an opening bracket begins with this bracket. -/
theorem CodeBetween.exists_tail {o c : UInt8} {tail : Text} {ks : List Token} (hc : Byte.closer? o = some c)
    (hdrop : source.drop start = o :: tail) (hks : CodeBetween source start stop ks) (hne : ks ≠ []) :
    ∃ js, ks = ⟨.byte, [o]⟩ :: js ∧ tail = code js ++ source.drop stop := by
  have hopener : Lexes [⟨.byte, [o]⟩] tail := ⟨stands_opener hc _, trivial⟩
  have hread : code [⟨.byte, [o]⟩] ++ tail = code ks ++ source.drop stop := hdrop.symm.trans hks.drop_eq
  have hshort : (source.drop stop).length ≤ tail.length := by
    obtain ⟨k, js, rfl⟩ := List.exists_cons_of_ne_nil hne
    have hpos := List.length_pos_iff.2 hks.lexes.1.text_ne_nil
    have hlength := congrArg List.length hread
    simp only [code_cons, code_nil, List.append_nil, List.length_append, List.length_singleton] at hlength
    omega
  obtain ⟨js, rfl⟩ := hopener.isPrefix hks.lexes hread hshort
  exact ⟨js, rfl, (List.cons.inj hread).2⟩

/-- What is met behind code with open brackets decides what matching the bracket says. -/
theorem afterBracket_eq {ks : List Token} {owed : List UInt8} {r : Scan Text} (h : OpenerAt source start)
    (hks : CodeBetween source start stop ks) (hopen : IsUnclosed (brackets ks)) (howes : Owes (brackets ks) owed)
    (hstop : Stops (source.length - start) owed (source.drop stop) r) : afterBracket (source.drop start) = r := by
  obtain ⟨o, c, hc, hlt, hdrop⟩ := h.exists_drop
  obtain ⟨js, rfl, htail⟩ := hks.exists_tail hc hdrop (by rintro rfl; exact hopen.1 rfl)
  have hlength : source.length - start = (source.drop (start + 1)).length + 1 := by
    rw [← List.length_drop, hdrop]
    rfl
  -- behind the outermost bracket only its partner is owed further out
  obtain ⟨inner, hf⟩ : ∃ inner, js.foldlM owe [] = some inner := by
    rw [brackets_opener hc] at hopen
    obtain ⟨o', c', v, inner, -, hv, he⟩ := isUnclosed_iff.1 hopen
    obtain ⟨-, rfl⟩ := List.cons.inj he
    exact ⟨inner, owes_brackets.1 hv⟩
  have hall : owed = inner ++ [c] := by
    rw [brackets_opener hc] at howes
    exact howes.unique ((owes_brackets.2 hf).cons hc)
  have hgo := afterClosers_lexes (source.length - start) hks.lexes.2 hf c
  rw [List.nil_append, ← hall, hstop.afterClosers_eq, ← htail, hlength] at hgo
  rw [hdrop, afterBracket, hc]
  exact hgo

/-- The search comes to its end behind code with open brackets. -/
theorem OpenerAt.exists_stops (h : OpenerAt source start) : ∃ stop ks owed r, CodeBetween source start stop ks ∧
    IsUnclosed (brackets ks) ∧ Owes (brackets ks) owed ∧
      Stops (source.length - start) owed (source.drop stop) r := by
  obtain ⟨o, c, hc, hlt, hdrop⟩ := h.exists_drop
  obtain ⟨js, owed, rest, r, htail, hjs, hf, hstop⟩ :=
    Scan.exists_stops (source.length - start) [] c (source.drop (start + 1))
  have hcode : source.drop start = code (⟨.byte, [o]⟩ :: js) ++ rest := by
    rw [hdrop, htail]
    rfl
  obtain ⟨hks, hrest⟩ := CodeBetween.of_drop (Nat.le_of_lt hlt) hcode ⟨stands_opener hc _, hjs⟩
  have howes := owes_brackets.2 hf
  refine ⟨_, _, owed ++ [c], r, hks, ?_, ?_, hrest ▸ hstop⟩
  · rw [brackets_opener hc]
    exact isUnclosed_iff.2 ⟨o, c, _, owed, hc, howes, rfl⟩
  · rw [brackets_opener hc]
    exact howes.cons hc

/-! ## Results at places -/

theorem partnerAt_of_ok {rest : Text} {c : UInt8} (hstart : start ≤ source.length) (hstop : stop ≤ source.length)
    (hdrop : source.drop stop = c :: rest) (h : afterBracket (source.drop start) = .ok rest) :
    partnerAt source start = .ok stop := by
  have hlength := congrArg List.length hdrop
  rw [List.length_drop, List.length_cons] at hlength
  have hoffset : offsetOf source rest - 1 = stop := by
    unfold offsetOf
    omega
  rw [partnerAt, if_pos hstart, fromOffset, h, ← hoffset]
  rfl

theorem partnerAt_of_error {cause : ScanCause} {left : Nat} (hstart : start ≤ source.length)
    (hstop : stop ≤ source.length) (hleft : left = source.length - stop)
    (h : afterBracket (source.drop start) = .error ⟨cause, left⟩) :
    partnerAt source start = .error ⟨cause, stop⟩ := by
  rw [partnerAt, if_pos hstart, fromOffset_eq_error hstop hleft h]
  rfl

/-! ## What matching says -/

/-- The search ends in one of these ways. -/
theorem OpenerAt.ends (h : OpenerAt source start) : Ends source start (partnerAt source start) := by
  obtain ⟨stop, ks, owed, r, hks, hopen, howes, hstop⟩ := h.exists_stops
  have hread := afterBracket_eq h hks hopen howes hstop
  have hstart : start ≤ source.length := Nat.le_trans hks.le hks.stop_le
  have hlength : (source.drop stop).length = source.length - stop := List.length_drop
  generalize hrest : source.drop stop = rest at hstop hlength
  cases hstop with
  | @partner c rest hclose =>
    rw [partnerAt_of_ok hstart hks.stop_le hrest hread]
    exact .partner hks (getElem?_of_drop hrest) (isBlock_concat_iff.2 ⟨hopen, howes⟩)
  | @mismatch _ b rest hb hne =>
    rw [partnerAt_of_error hstart hks.stop_le hlength hread]
    obtain ⟨d, more, hmore⟩ := hopen.exists_owes
    refine .mismatch hks hopen (getElem?_of_drop hrest) hb ⟨more, hmore⟩ ?_
    rintro rfl
    exact hne (howes.awaits_iff.1 ⟨more, hmore⟩)
  | ended =>
    rw [partnerAt_of_error hstart hstart rfl hread]
    obtain rfl : stop = source.length := by
      have hle := hks.stop_le
      rw [List.length_nil] at hlength
      omega
    exact .ended hks hopen
  | @unclosed _ b rest e he =>
    rcases lexeme_eq_error.1 he with ⟨hq, rfl⟩ | ⟨hq, rfl⟩
    · rw [partnerAt_of_error hstart hks.stop_le hlength hread]
      exact .string hks hopen (hrest ▸ hq)
    · rw [partnerAt_of_error hstart hks.stop_le hlength hread]
      exact .comment hks hopen (hrest ▸ hq)

/-- Each of these ways is how the search ends. -/
theorem Ends.partnerAt_eq (h : OpenerAt source start) {r : Except ScanError Nat} (hr : Ends source start r) :
    partnerAt source start = r := by
  have hstart : start ≤ source.length := by
    obtain ⟨-, -, -, hlt, -⟩ := h.exists_drop
    exact Nat.le_of_lt hlt
  -- a string or a comment without its end stops the search with its fault
  have unclosed : ∀ {ks q b rest e}, CodeBetween source start q ks → IsUnclosed (brackets ks) →
      source.drop q = b :: rest → lexeme b rest = .error e → afterBracket (source.drop start) = .error e := by
    intro ks q b rest e hks hopen hdrop he
    obtain ⟨c, owed, howes⟩ := hopen.exists_owes
    exact afterBracket_eq h hks hopen howes (hdrop ▸ .unclosed he)
  cases hr with
  | @partner ks c p hks hc hblock =>
    obtain ⟨hopen, howes⟩ := isBlock_concat_iff.1 hblock
    obtain ⟨-, hdrop⟩ := exists_drop_of_getElem? hc
    have hclose : Byte.isCloser c = true := howes.isCloser c List.mem_cons_self
    exact partnerAt_of_ok hstart hks.stop_le hdrop (afterBracket_eq h hks hopen howes (hdrop ▸ .partner hclose))
  | @mismatch ks c d q hks hopen hc hclose hd hne =>
    obtain ⟨owed, howes⟩ := hd
    obtain ⟨-, hdrop⟩ := exists_drop_of_getElem? hc
    have hread : afterBracket (source.drop start) = .error ⟨.unexpected c, (source.drop (q + 1)).length + 1⟩ := by
      apply afterBracket_eq h hks hopen howes
      rw [hdrop]
      apply Stops.mismatch hclose
      intro hsame
      exact hne (Option.some.inj hsame).symm
    exact partnerAt_of_error hstart hks.stop_le (by rw [← List.length_drop, hdrop]; rfl) hread
  | @ended ks hks hopen =>
    obtain ⟨c, owed, howes⟩ := hopen.exists_owes
    have hread : afterBracket (source.drop start) = .error ⟨.unclosedBlock, source.length - start⟩ := by
      apply afterBracket_eq h hks hopen howes
      rw [List.drop_length]
      exact .ended
    exact partnerAt_of_error hstart hstart rfl hread
  | @string ks q hks hopen hq =>
    obtain ⟨b, rest, hdrop, hquote⟩ := hq
    have hread := unclosed hks hopen hdrop (lexeme_eq_error.2 (.inl ⟨⟨b, rest, rfl, hquote⟩, rfl⟩))
    exact partnerAt_of_error hstart hks.stop_le (by rw [← List.length_drop, hdrop]; rfl) hread
  | @comment ks q hks hopen hq =>
    obtain ⟨inside, hdrop, hend⟩ := hq
    rw [blockStart] at hdrop
    have hfault : UnclosedComment (ascii '/' :: (ascii '*' :: inside)) := ⟨inside, by rw [blockStart]; rfl, hend⟩
    have hread := unclosed hks hopen hdrop (lexeme_eq_error.2 (.inr ⟨hfault, rfl⟩))
    exact partnerAt_of_error hstart hks.stop_le (by rw [← List.length_drop, hdrop]; rfl) hread

/-- Without an opening bracket nothing is searched for. Past the end stands a zero. -/
theorem partnerAt_of_not_opener (h : ¬OpenerAt source start) :
    partnerAt source start = .error ⟨.unexpected (source[start]?.getD 0), start⟩ := by
  by_cases hlt : start < source.length
  · have hdrop := List.drop_eq_getElem_cons hlt
    have hhere : source[start]? = some source[start] := List.getElem?_eq_getElem hlt
    have hno : Byte.closer? source[start] = none := by
      rw [Option.eq_none_iff_forall_ne_some]
      intro c hc
      exact h ⟨_, hhere, by simp [Byte.isOpener, hc]⟩
    have hread : afterBracket (source.drop start) =
        .error ⟨.unexpected source[start], (source.drop (start + 1)).length + 1⟩ := by
      rw [hdrop, afterBracket, hno]
    rw [hhere]
    apply partnerAt_of_error (Nat.le_of_lt hlt) (Nat.le_of_lt hlt) _ hread
    rw [← List.length_drop, hdrop, List.length_cons]
  · rw [List.getElem?_eq_none (Nat.le_of_not_lt hlt)]
    by_cases hle : start ≤ source.length
    · obtain rfl : start = source.length := by omega
      have hread : afterBracket (source.drop source.length) = .error ⟨.unexpected 0, 0⟩ := by
        rw [List.drop_length]
        rfl
      exact partnerAt_of_error hle hle (Nat.sub_self _).symm hread
    · rw [partnerAt, if_neg hle]
      rfl

theorem openerAt_of_ne (h : ∀ c, partnerAt source start ≠ .error ⟨.unexpected c, start⟩) : OpenerAt source start := by
  by_contra hno
  exact h _ (partnerAt_of_not_opener hno)

/-- But for the refusal of the byte at the place, each result is one of these ways. -/
theorem partnerAt_eq_iff {r : Except ScanError Nat} (hr : ∀ c, r ≠ .error ⟨.unexpected c, start⟩) :
    partnerAt source start = r ↔ OpenerAt source start ∧ Ends source start r := by
  constructor
  · intro h
    have ho : OpenerAt source start := openerAt_of_ne (h.symm ▸ hr)
    exact ⟨ho, h ▸ ho.ends⟩
  · intro h
    exact h.2.partnerAt_eq h.1

/-- Code with an open bracket takes up some place. -/
theorem CodeBetween.lt_of_isUnclosed {ks : List Token} (hks : CodeBetween source start stop ks)
    (hopen : IsUnclosed (brackets ks)) : start < stop := by
  obtain ⟨k, js, rfl⟩ := List.exists_cons_of_ne_nil (show ks ≠ [] by rintro rfl; exact hopen.1 rfl)
  have hk := List.length_pos_iff.2 hks.lexes.1.text_ne_nil
  have hstop := hks.stop_eq
  rw [code_cons, List.length_append] at hstop
  omega

/-- What matching the bracket at a place says, and when. -/
structure DecidesNesting (source : Text) (start : Nat) : Prop where
  /-- The partner is where the brackets of the code, from the bracket on, have become a block. -/
  partner : ∀ p, partnerAt source start = .ok p ↔ OpenerAt source start ∧
    ∃ ks c, CodeBetween source start p ks ∧ source[p]? = some c ∧ IsBlock (brackets ks ++ [c])
  /-- A closing bracket is refused where it is not the partner of the innermost bracket that is open. -/
  mismatch : ∀ c q, start < q ∧ partnerAt source start = .error ⟨.unexpected c, q⟩ ↔ OpenerAt source start ∧
    ∃ ks d, CodeBetween source start q ks ∧ IsUnclosed (brackets ks) ∧ source[q]? = some c ∧
      Byte.isCloser c = true ∧ Awaits (brackets ks) d ∧ c ≠ d
  /-- The bracket has no partner if the source is code to its end and some bracket is open then. -/
  ended : partnerAt source start = .error ⟨.unclosedBlock, start⟩ ↔ OpenerAt source start ∧
    ∃ ks, CodeBetween source start source.length ks ∧ IsUnclosed (brackets ks)
  /-- A string without its end is reported where it begins, if some bracket is open there. -/
  string : ∀ q, partnerAt source start = .error ⟨.unclosedString, q⟩ ↔ OpenerAt source start ∧
    ∃ ks, CodeBetween source start q ks ∧ IsUnclosed (brackets ks) ∧ UnclosedString (source.drop q)
  /-- And so is a comment without its end. -/
  comment : ∀ q, partnerAt source start = .error ⟨.unclosedComment, q⟩ ↔ OpenerAt source start ∧
    ∃ ks, CodeBetween source start q ks ∧ IsUnclosed (brackets ks) ∧ UnclosedComment (source.drop q)
  /-- Where no bracket opens, the byte there is refused. -/
  opener : partnerAt source start = .error ⟨.unexpected (source[start]?.getD 0), start⟩ ↔ ¬OpenerAt source start
  /-- There is no other result. -/
  complete : (∃ p, partnerAt source start = .ok p) ∨
    (∃ c q, start ≤ q ∧ partnerAt source start = .error ⟨.unexpected c, q⟩) ∨
    partnerAt source start = .error ⟨.unclosedBlock, start⟩ ∨
    (∃ q, partnerAt source start = .error ⟨.unclosedString, q⟩) ∨
    ∃ q, partnerAt source start = .error ⟨.unclosedComment, q⟩

/-- **Matching a bracket decides whether it is closed**, and says where and why it is not. -/
theorem decidesNesting (source : Text) (start : Nat) : DecidesNesting source start where
  partner := by
    intro p
    rw [partnerAt_eq_iff (by simp)]
    apply and_congr_right
    intro ho
    constructor
    · intro hends
      cases hends with
      | partner hks hc hblock => exact ⟨_, _, hks, hc, hblock⟩
    · rintro ⟨ks, c, hks, hc, hblock⟩
      exact .partner hks hc hblock
  mismatch := by
    intro c q
    constructor
    · rintro ⟨hlt, hq⟩
      have hplace : ∀ b, (.error ⟨.unexpected c, q⟩ : Except ScanError Nat) ≠ .error ⟨.unexpected b, start⟩ := by
        intro b he
        cases he
        exact Nat.lt_irrefl _ hlt
      obtain ⟨ho, hends⟩ := (partnerAt_eq_iff hplace).1 hq
      cases hends with
      | mismatch hks hopen hc hclose hd hne => exact ⟨ho, _, _, hks, hopen, hc, hclose, hd, hne⟩
    · rintro ⟨ho, ks, d, hks, hopen, hc, hclose, hd, hne⟩
      exact ⟨hks.lt_of_isUnclosed hopen, Ends.partnerAt_eq ho (.mismatch hks hopen hc hclose hd hne)⟩
  ended := by
    rw [partnerAt_eq_iff (by simp)]
    apply and_congr_right
    intro ho
    constructor
    · intro hends
      cases hends with
      | ended hks hopen => exact ⟨_, hks, hopen⟩
    · rintro ⟨ks, hks, hopen⟩
      exact .ended hks hopen
  string := by
    intro q
    rw [partnerAt_eq_iff (by simp)]
    apply and_congr_right
    intro ho
    constructor
    · intro hends
      cases hends with
      | string hks hopen hq => exact ⟨_, hks, hopen, hq⟩
    · rintro ⟨ks, hks, hopen, hq⟩
      exact .string hks hopen hq
  comment := by
    intro q
    rw [partnerAt_eq_iff (by simp)]
    apply and_congr_right
    intro ho
    constructor
    · intro hends
      cases hends with
      | comment hks hopen hq => exact ⟨_, hks, hopen, hq⟩
    · rintro ⟨ks, hks, hopen, hq⟩
      exact .comment hks hopen hq
  opener := by
    constructor
    · intro hrefused ho
      have hends := ho.ends
      rw [hrefused] at hends
      cases hends with
      | mismatch hks hopen => exact Nat.lt_irrefl _ (hks.lt_of_isUnclosed hopen)
    · exact partnerAt_of_not_opener
  complete := by
    by_cases ho : OpenerAt source start
    · have hends := ho.ends
      generalize partnerAt source start = r at hends ⊢
      cases hends with
      | partner => exact .inl ⟨_, rfl⟩
      | mismatch hks => exact .inr (.inl ⟨_, _, hks.le, rfl⟩)
      | ended => exact .inr (.inr (.inl rfl))
      | string => exact .inr (.inr (.inr (.inl ⟨_, rfl⟩)))
      | comment => exact .inr (.inr (.inr (.inr ⟨_, rfl⟩)))
    · exact .inr (.inl ⟨_, _, Nat.le_refl _, partnerAt_of_not_opener ho⟩)

end Scan

end PhpClass
