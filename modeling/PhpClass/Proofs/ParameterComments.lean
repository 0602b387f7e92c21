import Mathlib.Data.List.Forall2
import PhpClass.Grammar.File
import PhpClass.Proofs.BracketedList
import PhpClass.Proofs.Local
import PhpClass.Proofs.Splitting
import PhpClass.Proofs.Stripping

/-!
# Comments in parameter lists

A list is split and then the comments are taken out of each part. Taking them out of the whole list first gives the
same (`splitAt_strip`): a comment holds no comma of the list, and the space in its place opens nothing and closes
nothing.

So a method is read as the same method without the comments in its parameter list. What stands in front of the list is
read up to its bracket, whatever stands behind that (`ReadsUpTo.exists_front`), and behind the list only the
parameters matter that were read from it (`onlyMember_eq`).
-/

namespace PhpClass

open Text

namespace Scan

/-- The parts of a text, each without its comments, are the parts of the text without its comments. -/
def StripsPartByPart (t : Text) (ps : List Text) : Prop :=
  ∃ s ss, strip t = .ok s ∧ List.Forall₂ (fun part stripped => strip part = .ok stripped) ps ss ∧
    splitAt s.code 0 s.code.length = .ok (ss.map Stripped.code)

theorem stripsPartByPart_code {ks : List Token} (h : Lexes ks []) :
    StripsPartByPart (code ks) ((parts 0 ks).map code) := by
  refine ⟨_, (parts 0 ks).map fun p => ⟨code (p.map Token.bare), comments p⟩, strip_code h, ?_, ?_⟩
  · rw [List.forall₂_map_left_iff, List.forall₂_map_right_iff, List.forall₂_same]
    intro p hp
    exact strip_code (lexes_of_mem_parts h hp)
  · rw [splitAt_length, split_code (lexes_bare h), parts_bare, List.map_map, List.map_map]
    rfl

/-- Taking out comments and splitting can change places. -/
theorem splitAt_strip {t : Text} {ps : List Text} (h : splitAt t 0 t.length = .ok ps) : StripsPartByPart t ps := by
  have hsplit := splitAt_length.1 h
  obtain ⟨ks, rfl, hks⟩ := exists_code_of_splitFirst hsplit (Nat.le_refl _)
  rw [split_code hks, Except.ok.injEq] at hsplit
  subst hsplit
  exact stripsPartByPart_code hks

end Scan

namespace Grammar

variable {source list behind t u v rest name : Text} {c : Option Text} {ms : Modifiers}

/-! ## In front of a parameter list -/

/-- Of a source a comment, the modifiers and the name of a method are read, and the rest begins behind the blanks
there. -/
def ReadsUpTo (c : Option Text) (ms : Modifiers) (name source rest : Text) : Prop :=
  ∃ t u v, comment source = .ok (c, t) ∧ head? t = some (.method ms, u) ∧
    ident .methodName (skipBlanks u) = .ok (name, v) ∧ skipBlanks v = rest

/-- The source is read as a method with this list in its brackets, and this stands behind the list. -/
def HasParameterList (source list behind : Text) : Prop :=
  ∃ c ms name rest, ReadsUpTo c ms name source rest ∧ parameterList rest = .ok (Scan.inBrackets list, behind)

/-- What is read up to a bracket does not depend on what follows the bracket. -/
theorem ReadsUpTo.exists_front (h : ReadsUpTo c ms name source (ascii '(' :: rest)) :
    ∃ front, source = front ++ ascii '(' :: rest ∧
      ∀ more, ReadsUpTo c ms name (front ++ ascii '(' :: more) (ascii '(' :: more) := by
  obtain ⟨t, u, v, hc, hh, hi, hv⟩ := h
  obtain ⟨w₁, hu, hw₁, -⟩ := exists_blanks u
  obtain ⟨hname, hident, -⟩ := ident_eq_ok hi
  obtain ⟨w₂, hrest, hw₂, -⟩ := exists_blanks v
  rw [hv] at hrest
  rw [hname, hrest] at hu
  have hne : t ≠ [] := by
    rintro rfl
    exact absurd (head?_suffix hh).2 (Nat.not_lt_zero _)
  obtain ⟨hend, g, cs, rfl, hg, rfl⟩ := exists_gap hc hne
  have hhead : head? t = some (.method ms, w₁ ++ (name ++ w₂) ++ ascii '(' :: rest) := by simpa [← hu] using hh
  obtain ⟨p, rfl, hp⟩ := head?_stop (by decide) hhead
  have hend : Scan.GapEnd (p ++ (w₁ ++ (name ++ w₂)) ++ ascii '(' :: rest) := by simpa using hend
  refine ⟨g ++ (p ++ (w₁ ++ (name ++ w₂))), by simp, fun more => ?_⟩
  refine ⟨p ++ (w₁ ++ (name ++ w₂) ++ ascii '(' :: more), w₁ ++ (name ++ w₂) ++ ascii '(' :: more,
    w₂ ++ ascii '(' :: more, ?_, hp more, ?_, skipBlanks_append hw₂ (apart_cons.2 (by decide))⟩
  · rw [List.append_assoc g, ← List.append_assoc p (w₁ ++ (name ++ w₂))]
    exact comment_append hg (hend.stop (by decide) more)
  · have hopen : Apart Byte.isIdent (ascii '(' :: more) := apart_cons.2 (by decide)
    rw [List.append_assoc, List.append_assoc, skipBlanks_append hw₁ (hident.apart_blank.append hident.1)]
    exact ident_of_isIdent _ hident (apart_blanks hw₂ hopen)

/-! ## Parameter lists -/

/-- A list in brackets is read without its comments, and then stands in brackets as well. -/
theorem parameterList_strip (h : parameterList t = .ok (Scan.inBrackets list, behind)) :
    ∃ s, Scan.strip list = .ok s ∧
      parameterList (Scan.inBrackets s.code ++ behind) = .ok (Scan.inBrackets s.code, behind) := by
  obtain ⟨hread, -, -⟩ := parameterList_local h
  obtain ⟨o, b, ks, ho, he, -, hks, hb⟩ := Scan.bracketed_eq_ok.1 hread
  obtain ⟨rfl, hinside⟩ := List.cons.inj he
  obtain ⟨rfl, hclose⟩ := List.append_inj' hinside rfl
  obtain rfl := (List.cons.inj hclose).1
  refine ⟨_, Scan.strip_code hks.alone, ?_⟩
  rw [parameterList_inBrackets]
  exact Read.ofScan_eq_ok.2 (Scan.bracketed_inBrackets (Scan.lexes_bare hks) ((Scan.foldlM_owe_bare ks []).trans hb))

/-- Of a part the code without its comments is read. -/
theorem Listed.strip {ps : List Text} {vs : List TypedVar} (h : Listed ps vs) {ss : List Scan.Stripped}
    (hss : List.Forall₂ (fun part stripped => Scan.strip part = .ok stripped) ps ss) :
    Listed (ss.map Scan.Stripped.code) vs := by
  induction h generalizing ss with
  | nil =>
    cases hss
    exact .nil
  | blank hp hs _ ih =>
    cases hss with
    | cons hpart hmore =>
      rw [hp, Except.ok.injEq] at hpart
      subst hpart
      exact .blank (Scan.strip_strip hp) hs (ih hmore)
  | cons hp hs hv _ ih =>
    cases hss with
    | cons hpart hmore =>
      rw [hp, Except.ok.injEq] at hpart
      subst hpart
      exact .cons (Scan.strip_strip hp) hs hv (ih hmore)

/-- The same parameters are read from a list without its comments. -/
theorem addParameterList_strip {m n : Method} {more : Nat} {s : Scan.Stripped} (hs : Scan.strip list = .ok s)
    (h : addParameterList m list more = .ok n) : addParameterList m s.code more = .ok n := by
  obtain ⟨ps, vs, hsplit, hlisted, hadd⟩ := addParameterList_eq_ok.1 h
  obtain ⟨s', ss, hs', hss, hsplit'⟩ := Scan.splitAt_strip (Scan.splitAt_length.2 hsplit)
  rw [hs, Except.ok.injEq] at hs'
  subst hs'
  exact addParameterList_eq_ok.2 ⟨_, vs, Scan.splitAt_length.1 hsplit', hlisted.strip hss, hadd⟩

/-! ## Behind a parameter list -/

/-- A method behind its parameter list, given what is known of it there. -/
def behindList (m : Method) (t : Text) : Read ((Method × Option Text) × Text) := do
  let (before, rest) ← Read.ofScan (Scan.gap t)
  let (returnType, around, rest) ← returnType rest
  let (body, rest) ← methodBody rest
  let inSignature := (Scan.commentText? (before ++ around)).map fun c => Text.oneLine (Text.trim c)
  return (({ m with returnType, body }, inSignature), rest)

/-- A source with nothing but a method, behind the parameter list of the method. -/
def onlyBehindList (c : Option Text) (m : Method) (t : Text) : Read Member := do
  let ((m, inSignature), rest) ← behindList m t
  let (e, rest) := element c m rest
  let (_, rest) ← comment rest
  if rest.isEmpty then return .method { e with trailingComment := sideBySide inSignature e.trailingComment }
  else Read.stop .afterMember rest

/-- Of a name and a list the rest of a method depends on what was read there only. -/
theorem method_eq {m : Method} (hname : ident .methodName (skipBlanks t) = .ok (name, u))
    (hlist : parameterList (skipBlanks u) = .ok (list, behind))
    (hadd : addParameterList (withoutParameters ms name) (Scan.insideBrackets list) (behind.length + 1) = .ok m) :
    method ms t = behindList m behind := by
  unfold withoutParameters at hadd
  unfold method
  rw [hname]
  dsimp only [bind, Except.bind]
  rw [hlist]
  dsimp only
  rw [hadd]
  rfl

theorem onlyMember_eq {m : Method} (hread : ReadsUpTo c ms name source rest)
    (hlist : parameterList rest = .ok (list, behind))
    (hadd : addParameterList (withoutParameters ms name) (Scan.insideBrackets list) (behind.length + 1) = .ok m) :
    onlyMember source = onlyBehindList c m behind := by
  obtain ⟨t, u, v, hc, hh, hi, rfl⟩ := hread
  unfold onlyMember
  rw [hc]
  dsimp only [bind, Except.bind]
  unfold member
  rw [hh]
  dsimp only [declaration]
  rw [method_eq hi hlist hadd]
  unfold onlyBehindList
  cases behindList m behind <;> rfl

/-- The parameters of a method that is read are read from its list. -/
theorem ReadsUpTo.exists_parameters {m : Member} (hread : ReadsUpTo c ms name source rest)
    (hlist : parameterList rest = .ok (list, behind)) (h : onlyMember source = .ok m) :
    ∃ n, addParameterList (withoutParameters ms name) (Scan.insideBrackets list) (behind.length + 1) = .ok n := by
  obtain ⟨t, u, v, hc, hh, hi, rfl⟩ := hread
  obtain ⟨_, hc', h⟩ := bind_eq_ok.1 h
  rw [hc, Except.ok.injEq] at hc'
  subst hc'
  obtain ⟨_, hm, -⟩ := bind_eq_ok.1 h
  unfold member at hm
  rw [hh] at hm
  obtain ⟨_, hmethod, -⟩ := bind_eq_ok.1 hm
  obtain ⟨_, hi', h⟩ := bind_eq_ok.1 hmethod
  rw [hi, Except.ok.injEq] at hi'
  subst hi'
  obtain ⟨_, hlist', h⟩ := bind_eq_ok.1 h
  rw [hlist, Except.ok.injEq] at hlist'
  subst hlist'
  obtain ⟨n, hadd, -⟩ := bind_eq_ok.1 h
  exact ⟨n, hadd⟩

/-- A snippet with a method is read as the same member without the comments in its list. -/
theorem parse_strip {pre post : Text} {m : Member}
    (hlist : HasParameterList (pre ++ Scan.inBrackets list ++ post) list post)
    (h : Member.parse (pre ++ Scan.inBrackets list ++ post) = .ok m) :
    ∃ s, Scan.strip list = .ok s ∧ HasParameterList (pre ++ Scan.inBrackets s.code ++ post) s.code post ∧
      Member.parse (pre ++ Scan.inBrackets s.code ++ post) = .ok m := by
  obtain ⟨c, ms, name, rest, hread, hlist⟩ := hlist
  obtain ⟨s, hs, hlist'⟩ := parameterList_strip hlist
  obtain ⟨-, rfl, -⟩ := parameterList_local hlist
  have hopen : ReadsUpTo c ms name (pre ++ Scan.inBrackets list ++ post) (ascii '(' :: (list ++ [ascii ')'] ++ post)) :=
    hread
  obtain ⟨front, hsource, hmore⟩ := hopen.exists_front
  obtain rfl : pre = front := by
    rw [List.append_assoc] at hsource
    exact List.append_cancel_right hsource
  have hread' := hmore (s.code ++ [ascii ')'] ++ post)
  have hparse : onlyMember (pre ++ Scan.inBrackets list ++ post) = .ok m := mapError_eq_ok.1 h
  obtain ⟨n, hadd⟩ := hread.exists_parameters hlist hparse
  rw [onlyMember_eq hread hlist hadd] at hparse
  rw [Scan.inBrackets, Scan.insideBrackets_cons_concat] at hadd
  have hadd' := addParameterList_strip hs hadd
  rw [← Scan.insideBrackets_cons_concat (ascii '(') (ascii ')') s.code] at hadd'
  have hsame := onlyMember_eq hread' hlist' hadd'
  refine ⟨s, hs, ?_, ?_⟩
  · rw [List.append_assoc]
    exact ⟨c, ms, name, _, hread', hlist'⟩
  · rw [List.append_assoc]
    exact mapError_eq_ok.2 (hsame.trans hparse)

/-- **Comments in a parameter list do not matter.** -/
theorem list_comments_irrelevant :
    (∀ t ps, Scan.splitAt t 0 t.length = .ok ps → Scan.StripsPartByPart t ps) ∧
    ∀ pre list post m, HasParameterList (pre ++ Scan.inBrackets list ++ post) list post →
      Member.parse (pre ++ Scan.inBrackets list ++ post) = .ok m →
        ∃ s, Scan.strip list = .ok s ∧ HasParameterList (pre ++ Scan.inBrackets s.code ++ post) s.code post ∧
          Member.parse (pre ++ Scan.inBrackets s.code ++ post) = .ok m := by
  constructor
  · intro t ps h
    exact Scan.splitAt_strip h
  · intro pre list post m hlist h
    exact parse_strip hlist h

/-- A quote, a bracket and a comma in comments, and brackets in a string. -/
theorem list_comments_irrelevant_to_quotes :
    Scan.StripsPartByPart (utf8 "/*'(*/$a = ')', //,\n$b") [utf8 "/*'(*/$a = ')'", utf8 " //,\n$b"] ∧
    ∃ m, Member.parse (utf8 "function f(/*'(*/$a = ')', //,\n$b);") = .ok m ∧
      Member.parse (utf8 "function f( $a = ')',  \n$b);") = .ok m := by
  obtain ⟨hsplit, hmember⟩ := list_comments_irrelevant
  refine ⟨hsplit _ _ (by decide +kernel), ?_⟩
  let list := utf8 "/*'(*/$a = ')', //,\n$b"
  have hlist : HasParameterList (utf8 "function f" ++ Scan.inBrackets list ++ utf8 ";") list (utf8 ";") := by
    refine ⟨none, {}, utf8 "f", Scan.inBrackets list ++ utf8 ";", ?_, by decide +kernel⟩
    exact ⟨utf8 "function f" ++ Scan.inBrackets list ++ utf8 ";", utf8 " f" ++ Scan.inBrackets list ++ utf8 ";",
      Scan.inBrackets list ++ utf8 ";", by decide +kernel, by decide +kernel, by decide +kernel, by decide +kernel⟩
  have hread : (Member.parse (utf8 "function f" ++ Scan.inBrackets list ++ utf8 ";")).toOption.isSome = true := by
    decide +kernel
  obtain ⟨m, hm⟩ := Option.isSome_iff_exists.1 hread
  have hm := toOption_eq_some.1 hm
  obtain ⟨s, hs, -, hsame⟩ := hmember _ _ _ _ hlist hm
  have hstrip : Scan.strip list = .ok ⟨utf8 " $a = ')',  \n$b", 2⟩ := by decide +kernel
  rw [hstrip, Except.ok.injEq] at hs
  subst hs
  exact ⟨m, (congrArg (Member.parse · = .ok m) (by decide +kernel)).mp hm,
    (congrArg (Member.parse · = .ok m) (by decide +kernel)).mp hsame⟩

end Grammar

end PhpClass
