import PhpClass.Proofs.Nesting
import PhpClass.Proofs.ParameterList
import PhpClass.Proofs.Span
import PhpClass.Proofs.WholeScan

/-!
# The scanners agree on lists in brackets

Three scanners read a parameter list one after the other: the first one looks for the partner of its bracket, the
second one splits what is inside, and the third one takes the comments out of each part. What the first one has come
through is code with balanced brackets (`exists_between_partners`), and so the others come through it as well, and the
brackets of each part are paired (`splitsClosed_of_partnerAt`).

So the scanners cannot fail on a parameter list whose bracket has its partner. Where a method fails in scanning, all
of its parameters have been read (`scanners_agree`).
-/

namespace PhpClass

open Text

namespace Scan

/-- Code without comments, in which every string has its end and the brackets are paired. -/
def IsClosed (t : Text) : Prop :=
  ∃ ks, CodeBetween t 0 t.length ks ∧ (∀ k ∈ ks, k.kind ≠ .comment) ∧ Paired (brackets ks)

/-- Between two places the source is split, nothing is lost, and each part without its comments is closed. -/
def SplitsClosed (source : Text) (start stop : Nat) : Prop :=
  ∃ ps, splitAt source start stop = .ok ps ∧ join [ascii ','] ps = (source.take stop).drop start ∧
    ∀ part ∈ ps, ∃ stripped, strip part = .ok stripped ∧ IsClosed stripped.code

/-! ## Balanced code -/

theorem IsItem.isClosed {t : Text} (h : IsItem t) : IsClosed t := by
  obtain ⟨ks, rfl, hks, hcomments, hpart⟩ := h
  have hread : (code ks).drop 0 = code ks ++ [] := by rw [List.drop_zero, List.append_nil]
  obtain ⟨hbetween, -⟩ := CodeBetween.of_drop (Nat.zero_le _) hread hks
  rw [Nat.zero_add] at hbetween
  exact ⟨ks, hbetween, hcomments, paired_brackets.2 hpart.balanced⟩

/-- A part of balanced code is read without its comments, and is closed then. -/
theorem strip_part {ks p : List Token} {rest : Text} (h : Lexes ks rest) (hb : Balanced ks) (hp : p ∈ parts 0 ks) :
    ∃ stripped, strip (code p) = .ok stripped ∧ IsClosed stripped.code := by
  have hlexes := lexes_of_mem_parts h hp
  exact ⟨_, strip_code hlexes, (isItem_bare hlexes (isPart_of_balanced h hb hp)).isClosed⟩

variable {source : Text} {start stop : Nat}

/-- What stands between a bracket and its partner. -/
theorem exists_between_partners (h : partnerAt source start = .ok stop) : ∃ o c ks rest, Byte.closer? o = some c ∧
    source.drop start = o :: (code ks ++ c :: rest) ∧ stop = start + 1 + (code ks).length ∧ stop < source.length ∧
      Lexes ks (c :: rest) ∧ Balanced ks := by
  obtain ⟨hle, rest, hblock, rfl⟩ := bracketed_of_partnerAt h
  obtain ⟨o, c, ks, hc, hread, hdrop, hks, hb⟩ := bracketed_eq_ok.1 hblock
  rw [hread, List.cons_append, List.append_assoc, List.singleton_append] at hdrop
  have hlength := congrArg List.length hdrop
  rw [List.length_drop, List.length_cons, List.length_append, List.length_cons] at hlength
  refine ⟨o, c, ks, rest, hc, hdrop, ?_, ?_, hks, hb⟩
  · unfold offsetOf
    omega
  · unfold offsetOf
    omega

/-- Inside a bracket and its partner the source is split, and nothing fails on the parts. -/
theorem splitsClosed_of_partnerAt (hs : isUtf8 source = true) (h : partnerAt source start = .ok stop) :
    SplitsClosed source (start + 1) stop := by
  obtain ⟨o, c, ks, rest, hc, hdrop, rfl, hlt, hks, hb⟩ := exists_between_partners h
  have hinside : source.drop (start + 1) = code ks ++ c :: rest := by rw [← List.drop_drop, hdrop]; rfl
  have hle : start + 1 ≤ source.length := by omega
  -- a bracket is ASCII, so on both sides of it a character ends
  obtain ⟨ho, -⟩ := Byte.ascii_of_closer? o c hc
  obtain ⟨hahead, hbehind⟩ := ahead_of_ascii ho hs (hdrop ▸ List.drop_suffix start source)
  rw [← hdrop] at hahead
  rw [← hinside] at hbehind
  have hbstart := hbehind.isBoundary
  have hbstop := (partnerAt_whole (Nat.le_of_succ_le hle) hahead h).boundary
  rw [offsetOf_drop hle] at hbstart
  rw [← Nat.min_eq_left (Nat.le_of_lt hlt)] at hbstop
  have hsplit : splitAt source (start + 1) (start + 1 + (code ks).length) = .ok ((parts 0 ks).map code) := by
    rw [splitAt_eq_ok hle hbstart hbstop, Nat.min_eq_left (Nat.le_of_lt hlt), Nat.add_sub_cancel_left, hinside]
    exact splitFirst_code hks 0
  refine ⟨_, hsplit, (splitAt_join hle hbstart hbstop hsplit).2, ?_⟩
  intro part hpart
  obtain ⟨p, hp, rfl⟩ := List.mem_map.1 hpart
  exact strip_part hks hb hp

end Scan

/-- A failure that a scanner reports. -/
def Failure.IsScan (e : Failure) : Prop := ∃ cause left, e = .malformed ⟨.scan cause, left⟩

namespace Grammar

/-! ## Reading the parameters -/

theorem not_isScan_of_parameterIn {left : Nat} {part : Text} {e : Failure} {stripped : Scan.Stripped}
    (hpart : Scan.strip part = .ok stripped) (h : parameterIn left part = .error e) : ¬e.IsScan := by
  unfold parameterIn at h
  rw [hpart] at h
  rcases bind_eq_error.1 h with hread | ⟨s, -, h⟩
  · cases hread
  · dsimp only at h
    split at h
    · cases h
    · split at h
      · cases h
      · cases h
        rintro ⟨cause, left, he⟩
        cases he

theorem not_isScan_of_ofUnique {α : Type} {r : Except Duplicate α} {e : Failure} (h : Read.ofUnique r = .error e) :
    ¬e.IsScan := by
  cases r with
  | ok a => cases h
  | error d =>
    cases h
    rintro ⟨cause, left, he⟩
    cases he

/-- Reading the parts of a list does not fail in scanning if the comments can be taken out of each. -/
theorem not_isScan_of_addParts {m : Method} {left : Nat} {ps : List Text} {e : Failure}
    (hps : ∀ part ∈ ps, ∃ stripped, Scan.strip part = .ok stripped) (h : addParts m left ps = .error e) : ¬e.IsScan := by
  induction ps generalizing m left with
  | nil => cases h
  | cons part ps ih =>
    obtain ⟨⟨stripped, hpart⟩, hmore⟩ := List.forall_mem_cons.1 hps
    rw [addParts] at h
    rcases bind_eq_error.1 h with hread | ⟨o, -, h⟩
    · exact not_isScan_of_parameterIn hpart hread
    · cases o with
      | none => exact ih hmore h
      | some v =>
        rcases bind_eq_error.1 h with hadd | ⟨n, -, h⟩
        · exact not_isScan_of_ofUnique hadd
        · exact ih hmore h

/-- Nor does reading a list that stands between a bracket and its partner. -/
theorem not_isScan_of_addParameterList {t list rest : Text} {m : Method} {more : Nat} {e : Failure}
    (hlist : parameterList t = .ok (list, rest))
    (h : addParameterList m (Scan.insideBrackets list) more = .error e) : ¬e.IsScan := by
  unfold parameterList at hlist
  split at hlist
  · obtain ⟨o, c, ks, -, rfl, -, hks, hb⟩ := Scan.bracketed_eq_ok.1 (Read.ofScan_eq_ok.1 hlist)
    rw [Scan.insideBrackets_cons_concat, addParameterList, Scan.split_code hks.alone] at h
    rcases bind_eq_error.1 h with hsplit | ⟨ps, hsplit, h⟩
    · cases hsplit
    · cases hsplit
      apply not_isScan_of_addParts _ h
      intro part hpart
      obtain ⟨p, hp, rfl⟩ := List.mem_map.1 hpart
      obtain ⟨stripped, hstrip, -⟩ := Scan.strip_part hks hb hp
      exact ⟨stripped, hstrip⟩
  · cases hlist

/-- What is known of a method in front of its parameter list. -/
def withoutParameters (modifiers : Modifiers) (name : Text) : Method where
  name
  scope := modifiers.scope.getD .pub
  isStatic := modifiers.isStatic
  isAbstract := modifiers.isAbstract
  isFinal := modifiers.isFinal

/-- A method that fails in scanning behind a parameter list with its brackets has all of its parameters. -/
theorem exists_addParameterList {modifiers : Modifiers} {t name u list rest : Text} {e : Failure}
    (hname : ident .methodName (skipBlanks t) = .ok (name, u))
    (hlist : parameterList (skipBlanks u) = .ok (list, rest)) (h : method modifiers t = .error e) (he : e.IsScan) :
    ∃ m, addParameterList (withoutParameters modifiers name) (Scan.insideBrackets list) (rest.length + 1) = .ok m := by
  unfold method at h
  rw [hname] at h
  rcases bind_eq_error.1 h with hfail | ⟨_, hfound, h⟩
  · cases hfail
  · cases hfound
    dsimp only at h
    rw [hlist] at h
    rcases bind_eq_error.1 h with hfail | ⟨_, hfound, h⟩
    · cases hfail
    · cases hfound
      rcases bind_eq_error.1 h with hadd | ⟨m, hadd, -⟩
      · exact absurd he (not_isScan_of_addParameterList hlist hadd)
      · exact ⟨m, hadd⟩

/-- **The scanners agree on parameter lists.** -/
theorem scanners_agree :
    (∀ source start stop, isUtf8 source = true → Scan.partnerAt source start = .ok stop →
      Scan.SplitsClosed source (start + 1) stop) ∧
    ∀ modifiers t name u list rest e, ident .methodName (skipBlanks t) = .ok (name, u) →
      parameterList (skipBlanks u) = .ok (list, rest) → method modifiers t = .error e → e.IsScan →
        ∃ m, addParameterList (withoutParameters modifiers name) (Scan.insideBrackets list) (rest.length + 1) = .ok m := by
  constructor
  · intro source start stop hs h
    exact Scan.splitsClosed_of_partnerAt hs h
  · intro modifiers t name u list rest e hname hlist h he
    exact exists_addParameterList hname hlist h he

/-- A list with brackets in a comment and in a string, and a method that fails behind this list. -/
theorem scanners_agree_on_hidden_brackets :
    Scan.SplitsClosed (utf8 "($a, /* ) */ $b = ')')") 1 21 ∧
      ∃ m, addParameterList (withoutParameters {} (utf8 "f")) (utf8 "$a, /* ) */ $b = ')'") 3 = .ok m := by
  obtain ⟨hsplit, hmethod⟩ := scanners_agree
  constructor
  · exact hsplit _ 0 21 (by decide +kernel) (by decide +kernel)
  · have hname : ident .methodName (skipBlanks (utf8 " f($a, /* ) */ $b = ')') \x7b")) =
        .ok (utf8 "f", utf8 "($a, /* ) */ $b = ')') \x7b") := by decide +kernel
    have hlist : parameterList (skipBlanks (utf8 "($a, /* ) */ $b = ')') \x7b")) =
        .ok (utf8 "($a, /* ) */ $b = ')')", utf8 " \x7b") := by decide +kernel
    have hfail : method {} (utf8 " f($a, /* ) */ $b = ')') \x7b") = .error (.malformed ⟨.scan .unclosedBlock, 1⟩) := by
      decide +kernel
    exact hmethod _ _ _ _ _ _ _ hname hlist hfail ⟨_, _, rfl⟩

end Grammar

end PhpClass
