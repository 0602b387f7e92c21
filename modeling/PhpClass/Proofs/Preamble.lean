import Mathlib.Logic.Relation
import PhpClass.Proofs.Body
import PhpClass.Proofs.HeaderText
import PhpClass.Proofs.Token

/-!
# Statements in front of the namespace

The word `namespace` is looked for behind gaps and behind statements, which are skipped (`Grammar.Preamble`). It
ought to stand outside of strings and comments: a scan that passes over each of them as a whole ought to come to
it (`Scan.Reaches`).

The search for the end of a statement takes comments for code, so it can end inside of one, and the word can be
found there, too (`ClassFile.exists_namespace_in_comment`). What holds is `ClassFile.reaches_namespace`: the scan
comes to the word if each skipped statement is whole (`Scan.Whole`), which they are exactly if the scan comes to
the end of each. A statement without a slash always is (`Scan.whole_of_no_slash`).
-/

namespace PhpClass

open Text

namespace Scan

/-! ## Scanning from lexeme to lexeme -/

/-- What follows the first lexeme. -/
def afterLexeme : Text → Option Text
  | [] => none
  | b :: t => (lexeme b t).toOption.map Prod.snd

/-- From the one text a scan that passes over strings and comments as a whole comes to the other text, which is
what is left of it. -/
def Reaches : Text → Text → Prop := Relation.ReflTransGen fun t u => afterLexeme t = some u

theorem afterLexeme_cons {b : UInt8} {t rest : Text} :
    afterLexeme (b :: t) = some rest ↔ ∃ l, lexeme b t = .ok (l, rest) := by
  unfold afterLexeme
  rw [map_toOption_eq_some]
  constructor
  · rintro ⟨⟨l, r⟩, h, rfl⟩
    exact ⟨l, h⟩
  · rintro ⟨l, h⟩
    exact ⟨(l, rest), h, rfl⟩

theorem afterLexeme_eq_some {t rest : Text} :
    afterLexeme t = some rest ↔ ∃ k, t = k.text ++ rest ∧ Stands k rest := by
  cases t with
  | nil =>
    constructor
    · intro h
      cases h
    · rintro ⟨k, h, hk⟩
      exact absurd (List.append_eq_nil_iff.1 h.symm).1 hk.text_ne_nil
  | cons b t =>
    simp only [afterLexeme_cons, lexeme_eq_ok]
    constructor
    · rintro ⟨l, x, h, hk⟩
      exact ⟨_, h, hk⟩
    · rintro ⟨⟨l, x⟩, h, hk⟩
      exact ⟨l, x, h, hk⟩

theorem afterLexeme_length {t rest : Text} (h : afterLexeme t = some rest) : rest.length < t.length := by
  obtain ⟨k, rfl, hk⟩ := afterLexeme_eq_some.1 h
  have := List.length_pos_iff.2 hk.text_ne_nil
  rw [List.length_append]
  omega

namespace Reaches

variable {t u v place : Text}

/-- What is passed over are tokens, each of which ends where it does. -/
theorem iff_lexes : Reaches t place ↔ ∃ ks, t = code ks ++ place ∧ Lexes ks place := by
  constructor
  · intro h
    induction h using Relation.ReflTransGen.head_induction_on with
    | refl => exact ⟨[], rfl, trivial⟩
    | head hstep _ ih =>
      obtain ⟨ks, rfl, hks⟩ := ih
      obtain ⟨k, rfl, hk⟩ := afterLexeme_eq_some.1 hstep
      exact ⟨k :: ks, by simp, hk, hks⟩
  · rintro ⟨ks, rfl, hks⟩
    induction ks with
    | nil => exact .refl
    | cons k ks ih =>
      rw [code_cons, List.append_assoc]
      exact .head (afterLexeme_eq_some.2 ⟨k, rfl, hks.1⟩) (ih hks.2)

/-- The scan comes to one place after another. -/
theorem of_length_le (hu : Reaches t u) (hv : Reaches t v) (hle : v.length ≤ u.length) : Reaches u v := by
  have hunique : Relator.RightUnique fun t u => afterLexeme t = some u := by
    intro a b c hb hc
    rw [hb] at hc
    exact Option.some.inj hc
  rcases Relation.ReflTransGen.total_of_right_unique hunique hu hv with h | h
  · exact h
  · obtain ⟨ks, rfl, hks⟩ := iff_lexes.1 h
    cases ks with
    | nil => exact .refl
    | cons k ks =>
      have := List.length_pos_iff.2 hks.1.text_ne_nil
      simp only [code_cons, List.length_append] at hle
      omega

/-- Whether the scan comes to a place is found out by scanning. -/
def check (place t : Text) : Bool :=
  if t = place then true
  else
    match _h : afterLexeme t with
    | some rest => check place rest
    | none => false
termination_by t.length
decreasing_by exact afterLexeme_length ‹_›

theorem check_iff : check place t = true ↔ Reaches t place := by
  fun_induction check place t with
  | case1 => exact ⟨fun _ => .refl, fun _ => rfl⟩
  | case2 t hne rest hrest ih =>
    rw [ih]
    constructor
    · exact .head hrest
    · intro h
      rcases Relation.ReflTransGen.cases_head h with rfl | ⟨u, hu, h⟩
      · exact absurd rfl hne
      · rw [hrest] at hu
        cases hu
        exact h
  | case3 t hne hnone =>
    constructor
    · intro h
      cases h
    · intro h
      rcases Relation.ReflTransGen.cases_head h with rfl | ⟨u, hu, h⟩
      · exact absurd rfl hne
      · rw [hnone] at hu
        cases hu

instance : Decidable (Reaches t place) := decidable_of_iff _ check_iff

/-- The scan passes over a gap. -/
theorem gap {g : Text} {cs : List Text} (hg : IsGap g cs) (rest : Text) : Reaches (g ++ rest) rest := by
  induction hg with
  | nil => exact .refl
  | @blank b g cs hb _ ih =>
    have hk : Stands ⟨.byte, [b]⟩ (g ++ rest) := stands_plain (Byte.isPlain_of_isBlank b hb) _
    exact .head (afterLexeme_eq_some.2 ⟨_, rfl, hk⟩) ih
  | @block inside g cs hi _ ih =>
    rw [List.append_assoc]
    exact .head (afterLexeme_eq_some.2 ⟨_, rfl, .block hi⟩) ih
  | @line inside g e cs hi he _ ih =>
    rw [List.append_assoc]
    refine .head (afterLexeme_eq_some.2 ⟨_, rfl, .line hi ?_⟩) ih
    rw [List.cons_append, apart_cons, isInLine, he]
    rfl

theorem semicolon (rest : Text) : Reaches (ascii ';' :: rest) rest := by
  have hk : Stands ⟨.byte, [ascii ';']⟩ rest := .byte (by decide) (comment?_eq_none_of_ne (by decide) rest)
  exact .single (afterLexeme_eq_some.2 ⟨_, rfl, hk⟩)

end Reaches

/-! ## Whole statements -/

/-- The `;` behind the text is not inside a string or a comment that begins in the text. -/
def Whole (s : Text) : Prop := Reaches (s ++ [ascii ';']) [ascii ';']

instance (s : Text) : Decidable (Whole s) := inferInstanceAs (Decidable (Reaches _ _))

/-- What follows the `;` does not matter. -/
theorem whole_iff {s : Text} (behind : Text) :
    Whole s ↔ Reaches (s ++ ascii ';' :: behind) (ascii ';' :: behind) := by
  unfold Whole
  rw [Reaches.iff_lexes, Reaches.iff_lexes]
  constructor
  · rintro ⟨ks, h, hks⟩
    rw [List.append_cancel_right h]
    exact ⟨ks, rfl, hks.stop behind⟩
  · rintro ⟨ks, h, hks⟩
    rw [List.append_cancel_right h]
    exact ⟨ks, rfl, hks.stop []⟩

/-- Without slashes a search for a terminator and a scan pass over the same strings and bytes. -/
theorem Passes.reaches {terminator : UInt8} {s : Text} {d e : Nat} (h : Passes true terminator s d e)
    (hs : ascii '/' ∉ s) (rest : Text) : Reaches (s ++ rest) rest := by
  induction h with
  | nil => exact .refl
  | @quoted q s t d e hq hend _ ih =>
    have hk : Stands ⟨.quoted, q :: s⟩ (t ++ rest) := .quoted (by simpa using hq) hend
    have ht : ascii '/' ∉ t := fun hm => hs (List.mem_cons_of_mem _ (List.mem_append_right _ hm))
    exact .head (afterLexeme_eq_some.2 ⟨_, by simp, hk⟩) (ih ht)
  | @byte b t d e hq _ _ ih =>
    have hb : b ≠ ascii '/' := fun he => hs (he ▸ List.mem_cons_self)
    have hk : Stands ⟨.byte, [b]⟩ (t ++ rest) := .byte (by simpa using hq) (comment?_eq_none_of_ne hb _)
    exact .head (afterLexeme_eq_some.2 ⟨_, rfl, hk⟩) (ih fun hm => hs (List.mem_cons_of_mem _ hm))

theorem whole_of_no_slash {s : Text} (h : Passes true (ascii ';') s 0 0) (hs : ascii '/' ∉ s) : Whole s :=
  h.reaches hs _

/-- With a slash, the `;` can be inside a comment. -/
example : ¬Whole (utf8 "declare(ticks=1) /* ") := by decide +kernel

end Scan

namespace Grammar

open Scan

/-! ## What is skipped -/

/-- A statement without its `;`, and what follows that. -/
structure Skipped where
  text : Text
  behind : Text
  deriving DecidableEq, Repr

/-- Up to the place of the word `namespace` the text holds these statements, with gaps around them. -/
inductive Preamble : Text → List Skipped → Text → Prop where
  | word {g rest : Text} {cs : List Text} (hg : IsGap g cs) (hr : Apart Byte.isIdent rest) :
      Preamble (g ++ (utf8 "namespace" ++ rest)) [] (utf8 "namespace" ++ rest)
  | statement {g s rest place : Text} {cs : List Text} {ss : List Skipped} (hg : IsGap g cs)
      (hend : GapEnd (s ++ ascii ';' :: rest))
      (hword : keyword? (utf8 "namespace") (s ++ ascii ';' :: rest) = none)
      (hs : Passes true (ascii ';') s 0 0) (hrest : Preamble rest ss place) :
      Preamble (g ++ (s ++ ascii ';' :: rest)) (⟨s, rest⟩ :: ss) place

variable {t place : Text} {ss : List Skipped}

/-- The word is found behind such a preamble. -/
theorem exists_preamble {earlier cs : List (Option Text)} {rest : Text}
    (h : namespaceWord earlier t = .ok (cs, rest)) : ∃ ss, Preamble t ss (utf8 "namespace" ++ rest) := by
  fun_induction namespaceWord earlier t with
  | case1 => cases h
  | case2 earlier t c r hc r' hk =>
    cases h
    obtain ⟨rfl, hap⟩ := keyword?_eq_some.1 hk
    have hword : utf8 "namespace" ≠ [] := by decide
    obtain ⟨-, g, ds, rfl, hg, -⟩ := exists_gap hc (by simp [hword])
    exact ⟨[], .word hg hap⟩
  | case3 => cases h
  | case4 earlier t c r hc hk r' hs ih =>
    obtain ⟨ss, hss⟩ := ih h
    obtain ⟨s, rfl, hpass⟩ := skipStatement_eq_ok.1 hs
    obtain ⟨hend, g, ds, rfl, hg, -⟩ := exists_gap hc (by simp)
    exact ⟨⟨s, r'⟩ :: ss, .statement hg hend hk hpass hss⟩

theorem eq_of_gap_append {g g' r r' : Text} {cs cs' : List Text} (hg : IsGap g cs) (hr : GapEnd r)
    (hg' : IsGap g' cs') (hr' : GapEnd r') (h : g ++ r = g' ++ r') : r = r' := by
  have hread := gap_append hg hr
  rw [h, gap_append hg' hr'] at hread
  exact (Prod.mk.inj (Except.ok.inj hread)).2.symm

/-- There is only one way to skip the statements. -/
theorem Preamble.unique {ss' : List Skipped} {place' : Text} (h : Preamble t ss place)
    (h' : Preamble t ss' place') : ss = ss' ∧ place = place' := by
  have hend : ∀ rest, GapEnd (utf8 "namespace" ++ rest) := gapEnd_name (by decide)
  have hfound : ∀ {rest}, Apart Byte.isIdent rest →
      keyword? (utf8 "namespace") (utf8 "namespace" ++ rest) = some rest := fun hr =>
    keyword?_eq_some.2 ⟨rfl, hr⟩
  induction h generalizing ss' with
  | @word g rest cs hg hr =>
    generalize ht : g ++ (utf8 "namespace" ++ rest) = t at h'
    cases h' with
    | word hg' hr' =>
      exact ⟨rfl, eq_of_gap_append hg (hend _) hg' (hend _) ht⟩
    | statement hg' hend' hword' hs' hrest' =>
      rw [← eq_of_gap_append hg (hend _) hg' hend' ht, hfound hr] at hword'
      cases hword'
  | @statement g s rest place cs ss hg hgap hword hs _ ih =>
    generalize ht : g ++ (s ++ ascii ';' :: rest) = t at h'
    cases h' with
    | word hg' hr' =>
      rw [eq_of_gap_append hg hgap hg' (hend _) ht, hfound hr'] at hword
      cases hword
    | @statement g' s' rest' _ cs' ss' hg' hgap' hword' hs' hrest' =>
      have hsame := eq_of_gap_append hg hgap hg' hgap' ht
      have hskip : skipStatement (s ++ ascii ';' :: rest) = .ok rest := skipStatement_eq_ok.2 ⟨s, rfl, hs⟩
      rw [hsame, skipStatement_eq_ok.2 ⟨s', rfl, hs'⟩] at hskip
      cases hskip
      obtain ⟨rfl, rfl⟩ := ih hrest'
      rw [List.append_cancel_right hsame]
      exact ⟨rfl, rfl⟩

/-- What follows a statement is part of the text. -/
theorem Preamble.length_le_behind (h : Preamble t ss place) :
    ∀ s ∈ ss, (ascii ';' :: s.behind).length ≤ t.length := by
  induction h with
  | word => simp
  | statement hg hend hword hs _ ih =>
    intro s hm
    simp only [List.length_append, List.length_cons]
    rcases List.mem_cons.1 hm with rfl | hm
    · simp only
      omega
    · have hle := ih s hm
      rw [List.length_cons] at hle
      omega

/-- The scan comes to the word if every statement in front of it is whole. -/
theorem Preamble.reaches (h : Preamble t ss place) (hw : ∀ s ∈ ss, Whole s.text) : Reaches t place := by
  induction h with
  | word hg => exact .gap hg _
  | @statement g s rest place cs ss hg hend hword hs _ ih =>
    have hwhole := hw _ List.mem_cons_self
    have hsemicolon := (Reaches.gap hg _).trans ((whole_iff rest).1 hwhole)
    exact (hsemicolon.trans (Reaches.semicolon rest)).trans (ih fun s hm => hw s (List.mem_cons_of_mem _ hm))

/-- The scan comes to the ends of all statements exactly if every statement is whole. -/
theorem Preamble.whole_iff (h : Preamble t ss place) :
    (∀ s ∈ ss, Whole s.text) ↔ ∀ s ∈ ss, Reaches t (ascii ';' :: s.behind) := by
  induction h with
  | word => simp
  | @statement g s rest place cs ss hg hend hword hs hrest ih =>
    have hgap : Reaches (g ++ (s ++ ascii ';' :: rest)) (s ++ ascii ';' :: rest) := .gap hg _
    have hfirst : Whole s ↔ Reaches (g ++ (s ++ ascii ';' :: rest)) (ascii ';' :: rest) := by
      rw [Scan.whole_iff rest]
      exact ⟨hgap.trans, fun h => hgap.of_length_le h (by simp)⟩
    rw [List.forall_mem_cons, List.forall_mem_cons, ih, hfirst]
    refine and_congr_right fun hend => forall₂_congr fun x hx => ?_
    have hbehind : Reaches _ rest := hend.trans (Reaches.semicolon rest)
    exact ⟨hbehind.trans, fun h => hbehind.of_length_le h (hrest.length_le_behind x hx)⟩

end Grammar

namespace ClassFile

open Grammar Scan

/-- The text behind the open tag, and the place where the word `namespace` is found in it. -/
structure NamespaceAt (t start place : Text) : Prop where
  tag : beyond? (utf8 "<?php") t = some start
  word : ∃ comments rest, namespaceWord [] start = .ok (comments, rest) ∧ place = utf8 "namespace" ++ rest

/-- **The word `namespace` stands outside of strings and comments if the statements in front of it are whole.**
They are whole exactly if the `;` at the end of each stands outside of strings and comments. -/
theorem reaches_namespace {t : Text} {f : ClassFile} (h : ClassFile.parse t = .ok f) :
    ∃ start place ss, NamespaceAt t start place ∧ Preamble start ss place ∧
      ((∀ s ∈ ss, Whole s.text) ↔ ∀ s ∈ ss, Reaches start (ascii ';' :: s.behind)) ∧
      ((∀ s ∈ ss, Whole s.text) → Reaches start place) := by
  obtain ⟨start, hd, rest, content, last, hstart, hh, -, -⟩ := source_eq_ok.1 (mapError_eq_ok.1 h)
  obtain ⟨⟨space, r₁⟩, hn, -⟩ := bind_eq_ok.1 hh
  obtain ⟨⟨cs, r₂⟩, hword, -⟩ := bind_eq_ok.1 hn
  obtain ⟨ss, hss⟩ := Grammar.exists_preamble hword
  exact ⟨start, _, ss, ⟨hstart, cs, r₂, hword, rfl⟩, hss, hss.whole_iff, hss.reaches⟩

/-- A statement, and behind it a comment in which the word stands, too. -/
theorem exists_reaches_namespace : ∃ t f start place s,
    t = utf8 "<?php declare(ticks=1); /* namespace X; */ namespace A; class C \x7b\x7d" ∧
    ClassFile.parse t = .ok f ∧ NamespaceAt t start place ∧
    place = utf8 "namespace" ++ utf8 " A; class C \x7b\x7d" ∧ Preamble start [s] place ∧ Whole s.text ∧
    Reaches start place := by
  have hread : (ClassFile.parse (utf8
      "<?php declare(ticks=1); /* namespace X; */ namespace A; class C \x7b\x7d")).toOption.isSome = true := by
    decide +kernel
  obtain ⟨f, hf⟩ := Option.isSome_iff_exists.1 hread
  obtain ⟨start, place, ss, hat, hss, -, hreaches⟩ := ClassFile.reaches_namespace (toOption_eq_some.1 hf)
  have htag : beyond? (utf8 "<?php") (utf8
      "<?php declare(ticks=1); /* namespace X; */ namespace A; class C \x7b\x7d") =
        some ([Byte.space] ++ (utf8 "declare(ticks=1)" ++ ascii ';' ::
          (utf8 " /* namespace X; */ " ++ (utf8 "namespace" ++ utf8 " A; class C \x7b\x7d")))) := by decide +kernel
  have hpasses : Passes true (ascii ';') (utf8 "declare(ticks=1)") 0 0 :=
    IsStatement.passes ⟨by decide, by decide +kernel, by decide +kernel⟩
  have hwhole : Whole (utf8 "declare(ticks=1)") := whole_of_no_slash hpasses (by decide)
  have hblank : IsGap [Byte.space] [] := isGap_blanks isBlank_space
  have hinside : holds (utf8 "*/") (utf8 " namespace X; ") = false := by decide
  have hcomment : IsGap (utf8 " /* namespace X; */ ") _ := .blank (by decide) (.block hinside hblank)
  have hap : Apart Byte.isIdent (utf8 " A; class C \x7b\x7d") := apart_cons.2 (by decide)
  have hpreamble := Preamble.statement hblank (gapEnd_cons (by decide) (by decide)) (by decide +kernel) hpasses
    (.word hcomment hap)
  obtain rfl := Option.some.inj (hat.tag.symm.trans htag)
  obtain ⟨rfl, rfl⟩ := hss.unique hpreamble
  exact ⟨_, f, _, _, _, rfl, toOption_eq_some.1 hf, hat, rfl, hss, hwhole, hreaches (by simpa using hwhole)⟩

/-- **The word can be found inside a comment** that stands in a statement in front of it. The class that is read
is the one in the comment. -/
theorem exists_namespace_in_comment : ∃ t f start place,
    t = utf8 "<?php\ndeclare(strict_types=1) /* ; namespace A; class C \x7b\x7d */;\nnamespace B;\nclass D \x7b\x7d" ∧
    ClassFile.parse t = .ok f ∧ f.namespaceName.payload = utf8 "A" ∧ f.className = utf8 "C" ∧
    NamespaceAt t start place ∧ ¬Reaches start place := by
  have hread : (ClassFile.parse (utf8
      "<?php\ndeclare(strict_types=1) /* ; namespace A; class C \x7b\x7d */;\nnamespace B;\nclass D \x7b\x7d")
        ).toOption.map (fun f => decide (f.namespaceName.payload = utf8 "A" ∧ f.className = utf8 "C")) =
          some true := by decide +kernel
  obtain ⟨f, hf, hnames⟩ := map_toOption_eq_some.1 hread
  obtain ⟨hspace, hclass⟩ := of_decide_eq_true hnames
  have hplace : namespaceWord [] (utf8
      "\ndeclare(strict_types=1) /* ; namespace A; class C \x7b\x7d */;\nnamespace B;\nclass D \x7b\x7d") =
        .ok ([none, none], utf8 " A; class C \x7b\x7d */;\nnamespace B;\nclass D \x7b\x7d") := by decide +kernel
  exact ⟨_, f, _, _, rfl, hf, hspace, hclass, ⟨by decide +kernel, _, _, hplace, rfl⟩, by decide +kernel⟩

end ClassFile

end PhpClass
