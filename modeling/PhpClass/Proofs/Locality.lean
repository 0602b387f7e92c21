import PhpClass.Proofs.Partner
import PhpClass.Proofs.Statement
import PhpClass.Proofs.WholeScan

/-!
# Searches are local

A search for the partner of a bracket, or for a terminator, reads from where it begins up to the byte that it finds and
no further. So it finds the last byte of that stretch again wherever the stretch stands, whatever is in front of it and
behind it (`searches_local`). A quote, a comment mark or a bracket right behind the stretch makes no difference: the
last byte of the stretch begins no comment mark, and every string and every comment in it has its end there.
-/

namespace PhpClass

open Text

namespace Scan

/-- What is found in a source is found again in every other one that holds the stretch from where the search begins up
to the byte that it finds. -/
def IsLocal (find : Text → Nat → Except ScanError Nat) : Prop :=
  ∀ source start stop, find source start = .ok stop → ∀ before behind : Text,
    find (before ++ (source.take (stop + 1)).drop start ++ behind) before.length = .ok (before.length + stop - start)

/-- The search from the front of the stretch finds its last byte, wherever the stretch stands. -/
def FindsLast (find : Text → Nat → Except ScanError Nat) (stretch : Text) : Prop :=
  ∀ before behind : Text,
    find (before ++ stretch ++ behind) before.length = .ok (before.length + stretch.length - 1)

/-- A search is local if it finds the last bytes of such stretches only. -/
theorem isLocal_of_findsLast {find : Text → Nat → Except ScanError Nat}
    (h : ∀ source start stop, find source start = .ok stop →
      ∃ stretch, Between source start (stop + 1) stretch ∧ FindsLast find stretch) : IsLocal find := by
  intro source start stop hfind before behind
  obtain ⟨stretch, hbetween, hlast⟩ := h source start stop hfind
  have hstop := hbetween.stop_eq
  rw [hbetween.eq, hlast before behind, Except.ok.injEq]
  omega

/-! ## Brackets -/

/-- A bracketed text ends at the partner of its first bracket. -/
theorem findsLast_of_bracketed {t block rest : Text} (h : bracketed t = .ok (block, rest)) :
    FindsLast partnerAt block := by
  intro before behind
  obtain ⟨r, hread, he⟩ := bind_eq_ok.1 (bracketed_append h behind)
  rw [(Prod.mk.inj (Except.ok.inj he)).2] at hread
  obtain ⟨o, c, ks, -, rfl, -⟩ := bracketed_eq_ok.1 h
  have hstart : (before ++ o :: (code ks ++ [c]) ++ behind).drop before.length =
      o :: (code ks ++ [c]) ++ behind := by
    rw [List.append_assoc, List.drop_left]
  -- the bracket that is found stands behind the rest of the block
  have hstop : (before ++ o :: (code ks ++ [c]) ++ behind).drop (before.length + (o :: code ks).length) =
      c :: behind := by
    rw [← List.drop_drop, hstart, ← List.cons_append, List.append_assoc, List.drop_left]
    rfl
  have hlength : before.length + (o :: (code ks ++ [c])).length - 1 = before.length + (o :: code ks).length := by
    simp only [List.length_cons, List.length_append, List.length_nil]
    omega
  rw [hlength]
  apply partnerAt_of_ok _ _ hstop
  · rw [hstart]
    exact hread
  · simp only [List.length_append]
    omega
  · simp only [List.length_append, List.length_cons]
    omega

theorem isLocal_partnerAt : IsLocal partnerAt := by
  apply isLocal_of_findsLast
  intro source start stop h
  obtain ⟨hle, rest, hblock, rfl⟩ := bracketed_of_partnerAt h
  refine ⟨_, ?_, findsLast_of_bracketed hblock⟩
  have hdrop := bracketed_eq_append hblock
  obtain ⟨hbetween, -⟩ := Between.of_drop hle hdrop
  obtain ⟨o, c, ks, -, hne, -⟩ := bracketed_eq_ok.1 hblock
  have hlength := congrArg List.length hdrop
  have hpos := congrArg List.length hne
  rw [List.length_append, List.length_drop] at hlength
  rw [List.length_cons] at hpos
  rwa [show offsetOf source rest - 1 + 1 = start + (upTo (source.drop start) rest).length by
    unfold offsetOf
    omega]

/-! ## Terminators -/

/-- Where strings are passed over, their quotes are never found. -/
theorem isQuote_of_afterTerminator {strings : Bool} {terminator : UInt8} {depth : Nat} {t rest : Text}
    (h : afterTerminator strings terminator depth t = .ok rest) : (strings && Byte.isQuote terminator) = false := by
  fun_induction afterTerminator strings terminator depth t with
  | case1 => cases h
  | case2 _ _ _ _ _ _ ih => exact ih h
  | case3 => cases h
  | case4 depth b t hb hend =>
    simp only [Bool.and_eq_true, decide_eq_true_eq] at hend
    rw [← hend.2]
    exact Bool.eq_false_iff.2 hb
  | case5 _ _ _ _ _ ih => exact ih h

/-- What is passed over up to a terminator with no bracket open ends at that terminator. -/
theorem findsLast_of_passes {strings : Bool} {terminator : UInt8} (hq : (strings && Byte.isQuote terminator) = false)
    {s : Text} (h : Passes strings terminator s 0 0) :
    FindsLast (terminatorAt strings terminator) (s ++ [terminator]) := by
  intro before behind
  have hread : afterTerminator strings terminator 0
      ((before ++ (s ++ [terminator]) ++ behind).drop before.length) = .ok behind := by
    rw [List.append_assoc, List.drop_left, List.append_assoc, h.afterTerminator]
    exact afterTerminator_here hq behind
  rw [terminatorAt, fromOffset, hread, show before ++ (s ++ [terminator]) ++ behind =
    (before ++ s) ++ terminator :: behind by simp only [List.append_assoc, List.singleton_append]]
  refine congrArg Except.ok ((offsetOf_append _ _).trans ?_)
  simp only [List.length_append, List.length_singleton]
  omega

theorem isLocal_terminatorAt (strings : Bool) (terminator : UInt8) : IsLocal (terminatorAt strings terminator) := by
  apply isLocal_of_findsLast
  intro source start stop h
  obtain ⟨rest, hread, he⟩ := bind_eq_ok.1 h
  cases he
  have hq := isQuote_of_afterTerminator (fromOffset_eq_ok hread)
  obtain ⟨s, hdrop, hs⟩ := (afterTerminator_eq_ok hq).1 (fromOffset_eq_ok hread)
  refine ⟨s ++ [terminator], ?_, findsLast_of_passes hq hs⟩
  have hlt : start < source.length := by
    by_contra hle
    rw [List.drop_eq_nil_of_le (Nat.le_of_not_lt hle)] at hdrop
    simp at hdrop
  obtain ⟨hbetween, -⟩ := Between.of_drop (Nat.le_of_lt hlt)
    (show source.drop start = (s ++ [terminator]) ++ rest by rw [hdrop, List.append_assoc]; rfl)
  have hlength := congrArg List.length hdrop
  simp only [List.length_drop, List.length_append, List.length_cons] at hlength
  have hstop : start + (s ++ [terminator]).length = offsetOf source (terminator :: rest) + 1 := by
    simp only [offsetOf, List.length_append, List.length_cons, List.length_nil]
    omega
  rwa [hstop] at hbetween

/-- **What the searches find depends on nothing but the stretch up to what they find.** -/
theorem searches_local :
    IsLocal partnerAt ∧ ∀ (strings : Bool) (terminator : UInt8), IsLocal (terminatorAt strings terminator) :=
  ⟨isLocal_partnerAt, isLocal_terminatorAt⟩

/-- Neither the comment mark in front nor the quote and the bracket behind are seen. -/
theorem searches_local_in_comment :
    partnerAt (utf8 "f('(' /* ) */);") 1 = .ok 13 ∧ partnerAt (utf8 "/*('(' /* ) */)'(") 2 = .ok 14 ∧
      terminatorAt true (ascii ';') (utf8 "a = [';', 1]; \x7d") 3 = .ok 12 ∧
      terminatorAt true (ascii ';') (utf8 "/* [';', 1];'") 2 = .ok 11 := by
  have hpartner : partnerAt (utf8 "f('(' /* ) */);") 1 = .ok 13 := by decide +kernel
  have hterminator : terminatorAt true (ascii ';') (utf8 "a = [';', 1]; \x7d") 3 = .ok 12 := by decide +kernel
  have hpartner' := searches_local.1 _ _ _ hpartner (utf8 "/*") (utf8 "'(")
  have hterminator' := searches_local.2 _ _ _ _ _ hterminator (utf8 "/*") (utf8 "'")
  rw [show utf8 "/*" ++ ((utf8 "f('(' /* ) */);").take 14).drop 1 ++ utf8 "'(" = utf8 "/*('(' /* ) */)'(" by
    decide +kernel] at hpartner'
  rw [show utf8 "/*" ++ ((utf8 "a = [';', 1]; \x7d").take 13).drop 3 ++ utf8 "'" = utf8 "/* [';', 1];'" by
    decide +kernel] at hterminator'
  exact ⟨hpartner, hpartner', hterminator, hterminator'⟩

end Scan

end PhpClass
