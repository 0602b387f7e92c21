import PhpClass.Proofs.ParameterList

/-!
# Gaps in lists of parameters

A parameter is read from its code without the comments. What is left of a spelling without its comments is a spelling of
the same parameter with blanks in the place of its gaps (`Grammar.strips_parameter`), since the comments of a gap
are tokens of their own, whatever follows them (`Scan.Strips`). So the quotes, commas and brackets in them count nowhere,
neither where the list is split nor where it ends.

* `Grammar.listed_spelled`: parameters are read from the parts of a list that spell them.
-/

namespace PhpClass

open Text

namespace Scan

/-! ## Code that ends in front of anything -/

/-- The code is read up to its end whatever follows it, and this is left of it without its comments. -/
def Strips (t u : Text) : Prop :=
  ∃ ks, t = code ks ∧ (∀ rest, Lexes ks rest) ∧ IsPart ks ∧ code (ks.map Token.bare) = u

theorem isPart_comment (x : Text) : IsPart [⟨.comment, x⟩] where
  balanced := rfl
  whole := by simp [parts, comma]

/-- A string or a byte stays what it is in front of anything, unless it is a slash. -/
theorem Stands.extend_last {k : Token} (h : Stands k []) (hk : k.kind ≠ .comment)
    (hlast : k.text.getLast? ≠ some (ascii '/')) (rest : Text) : Stands k rest := by
  cases h with
  | quoted hq hs => exact .quoted hq hs
  | block | line => exact absurd rfl hk
  | byte hq _ => exact .byte hq (comment?_eq_none_of_ne (by simpa using hlast) rest)

theorem Lexes.extend_last {ks : List Token} (h : Lexes ks []) (hk : ∀ k ∈ ks, k.kind ≠ .comment)
    (hlast : (code ks).getLast? ≠ some (ascii '/')) (rest : Text) : Lexes ks rest := by
  induction ks with
  | nil => trivial
  | cons k ks ih =>
    rw [code_cons, List.getLast?_append] at hlast
    refine ⟨?_, ih h.2 (fun j hj => hk j (List.mem_cons_of_mem _ hj)) fun he => hlast (by rw [he]; rfl)⟩
    cases hc : code ks with
    | nil =>
      rw [hc] at hlast
      exact h.1.alone.extend_last (hk k List.mem_cons_self) hlast rest
    | cons b t => exact h.1.congr (by rw [hc]; rfl)

variable {t u t' u' : Text}

namespace Strips

theorem append (h : Strips t u) (h' : Strips t' u') : Strips (t ++ t') (u ++ u') := by
  obtain ⟨ks, rfl, hks, hkp, rfl⟩ := h
  obtain ⟨ms, rfl, hms, hmp, rfl⟩ := h'
  refine ⟨ks ++ ms, (code_append ks ms).symm, fun rest => lexes_append.2 ⟨hks _, hms rest⟩,
    hkp.append (hks []) hmp, ?_⟩
  rw [List.map_append, code_append]

theorem of_plain {w : Text} (hw : Within Byte.isPlain w) : Strips w w := by
  refine ⟨bytes w, (code_bytes w).symm, lexes_bytes hw, .bytes hw, ?_⟩
  rw [map_bare_eq_self fun k hk => by simp [kind_of_mem_bytes hk], code_bytes]

theorem of_blank {w : Text} (hw : Within Byte.isBlank w) : Strips w w := of_plain (hw.mono Byte.isPlain_of_isBlank)

theorem of_comment {x : Text} (hx : ∀ rest, Stands ⟨.comment, x⟩ (t ++ rest)) (ht : Strips t u) :
    Strips (x ++ t) (Byte.space :: u) := by
  obtain ⟨ks, rfl, hks, hkp, rfl⟩ := ht
  exact ⟨⟨.comment, x⟩ :: ks, rfl, fun rest => ⟨hx rest, hks rest⟩, (isPart_comment x).append ⟨hx [], trivial⟩ hkp, rfl⟩

/-- Code without comments ends in front of anything, unless it ends in a slash. -/
theorem of_item (ht : IsItem t) (hlast : t.getLast? ≠ some (ascii '/')) : Strips t t := by
  obtain ⟨ks, rfl, hks, hkc, hkp⟩ := ht
  exact ⟨ks, rfl, hks.extend_last hkc hlast, hkp, by rw [map_bare_eq_self hkc]⟩

theorem isSegment (h : Strips t u) : IsSegment t := by
  obtain ⟨ks, rfl, hks, hkp, -⟩ := h
  exact ⟨ks, rfl, fun rest _ => hks rest, hkp⟩

theorem strip_eq (h : Strips t u) : ∃ n, strip t = .ok ⟨u, n⟩ := by
  obtain ⟨ks, rfl, hks, -, rfl⟩ := h
  exact ⟨_, strip_code (hks [])⟩

end Strips

/-- Blanks are left of a gap without its comments, and some are left of each gap that is not empty. -/
theorem IsGapText.strips {g : Text} (h : IsGapText g) :
    ∃ w, Strips g w ∧ Within Byte.isBlank w ∧ (g ≠ [] → w ≠ []) := by
  obtain ⟨cs, hg⟩ := h
  induction hg with
  | nil => exact ⟨[], .of_plain (within_nil _), within_nil _, id⟩
  | @blank b g cs hb _ ih =>
    obtain ⟨w, hs, hw, -⟩ := ih
    have hbyte : Within Byte.isBlank [b] := by simpa using hb
    exact ⟨[b] ++ w, (Strips.of_blank hbyte).append hs, within_append.2 ⟨hbyte, hw⟩, by simp⟩
  | block hi _ ih =>
    obtain ⟨w, hs, hw, -⟩ := ih
    exact ⟨Byte.space :: w, .of_comment (fun _ => .block hi) hs, within_cons.2 ⟨by decide, hw⟩, by simp⟩
  | @line inside g e cs hi he _ ih =>
    obtain ⟨w, hs, hw, -⟩ := ih
    have hcomment : ∀ rest, Stands ⟨.comment, utf8 "//" ++ inside⟩ (e :: g ++ rest) := fun rest =>
      .line hi (apart_cons.2 (by simp [isInLine, he]))
    exact ⟨Byte.space :: w, .of_comment hcomment hs, within_cons.2 ⟨by decide, hw⟩, by simp⟩

end Scan

namespace Grammar

open Scan (IsGapText Strips)

/-! ## Parameters without their comments -/

variable {t : Text}

theorem strips_scope {scope : Option Scope} (h : SpellsScope IsGapText scope t) :
    ∃ u, SpellsScope (Within Byte.isBlank) scope u ∧ Strips t u := by
  cases h with
  | none => exact ⟨[], .none, .of_plain (within_nil _)⟩
  | @some s g hg hne =>
    obtain ⟨w, hs, hw, hwne⟩ := hg.strips
    exact ⟨_, .some hw (hwne hne), (Strips.of_plain (s.within_keyword.mono Byte.isPlain_of_isIdent)).append hs⟩

theorem strips_type {type : Text} (h : SpellsType IsGapText type t) :
    ∃ u, SpellsType (Within Byte.isBlank) type u ∧ Strips t u := by
  cases h with
  | none => exact ⟨[], .none, .of_plain (within_nil _)⟩
  | some hne htype hg =>
    obtain ⟨w, hs, hw, -⟩ := hg.strips
    exact ⟨_, .some hne htype hw, (Strips.of_plain (plain_of_isType htype)).append hs⟩

theorem strips_name {name : Text} (h : SpellsName IsGapText name t) :
    ∃ u, SpellsName (Within Byte.isBlank) name u ∧ Strips t u := by
  have hword : ∀ {d w : Text}, d = [] ∨ d = utf8 "..." → IsIdent w →
      Strips (d ++ (utf8 "$" ++ w)) (d ++ (utf8 "$" ++ w)) := by
    intro d w hd hw
    refine .of_plain (within_append.2 ⟨?_, within_append.2 ⟨by decide, hw.within.mono Byte.isPlain_of_isIdent⟩⟩)
    rcases hd with rfl | rfl <;> decide
  cases h with
  | value hd hw => exact ⟨_, .value hd hw, hword hd hw⟩
  | reference hg hd hw =>
    obtain ⟨w, hs, hblank, -⟩ := hg.strips
    exact ⟨_, .reference hblank hd hw, (Strips.of_plain (by decide)).append (hs.append (hword hd hw))⟩

theorem strips_default {d : Option Text} (h : SpellsDefault IsGapText d t)
    (hlast : ∀ x ∈ d, x.getLast? ≠ some (ascii '/')) :
    ∃ u, SpellsDefault (Within Byte.isBlank) d u ∧ Strips t u := by
  cases h with
  | none => exact ⟨[], .none, .of_plain (within_nil _)⟩
  | some hg hd hg' =>
    obtain ⟨w, hs, hw, -⟩ := hg.strips
    obtain ⟨w', hs', hw', -⟩ := hg'.strips
    have hdefault := Strips.of_item hd.isItem (hlast _ rfl)
    exact ⟨_, .some hw hd hw', (Strips.of_plain (by decide)).append (hs.append (hdefault.append hs'))⟩

/-- Without its comments a spelling of a parameter is one with blanks. -/
theorem strips_parameter {v : TypedVar} (h : SpellsParameter IsGapText v t)
    (hlast : ∀ d ∈ v.defaultValue, d.getLast? ≠ some (ascii '/')) :
    ∃ u, SpellsParameter (Within Byte.isBlank) v u ∧ Strips t u := by
  cases h with
  | mk hg hscope htype hname hg' hdefault hstatic =>
    obtain ⟨w, hs, hw, -⟩ := hg.strips
    obtain ⟨w', hs', hw', -⟩ := hg'.strips
    obtain ⟨scope, hscope, hsscope⟩ := strips_scope hscope
    obtain ⟨type, htype, hstype⟩ := strips_type htype
    obtain ⟨name, hname, hsname⟩ := strips_name hname
    obtain ⟨default, hdefault, hsdefault⟩ := strips_default hdefault hlast
    exact ⟨_, .mk hw hscope htype hname hw' hdefault hstatic,
      hs.append (hsscope.append (hstype.append (hsname.append (hs'.append hsdefault))))⟩

/-! ## Lists of parameters -/

/-- What stands between the commas of a list with these parameters. No default ends in a slash, which could begin a
comment with the gap behind it. Behind the last parameter nothing but gaps stands: one behind a comma at the end of the
list, or the only part of a list without parameters. -/
inductive SpellsParameters : List TypedVar → List Text → Prop where
  | gaps {gs : List Text} (hgs : ∀ g ∈ gs, IsGapText g) : SpellsParameters [] gs
  | cons {v : TypedVar} {vs : List TypedVar} {t : Text} {ts : List Text} (hv : SpellsParameter IsGapText v t)
      (hlast : ∀ d ∈ v.defaultValue, d.getLast? ≠ some (ascii '/')) (hvs : SpellsParameters vs ts) :
      SpellsParameters (v :: vs) (t :: ts)

theorem listed_gaps {gs : List Text} (hgs : ∀ g ∈ gs, IsGapText g) :
    Listed gs [] ∧ ∀ g ∈ gs, Scan.IsSegment g := by
  induction gs with
  | nil => exact ⟨.nil, by simp⟩
  | cons g gs ih =>
    obtain ⟨hlisted, hsegments⟩ := ih fun x hx => hgs x (List.mem_cons_of_mem _ hx)
    obtain ⟨w, hs, hw, -⟩ := (hgs g List.mem_cons_self).strips
    obtain ⟨n, hstrip⟩ := hs.strip_eq
    have hspace : isSpace w = true := by
      have htrim := trim_blanks hw (within_nil _) []
      rw [List.append_nil, List.append_nil] at htrim
      exact trim_eq_nil_iff.1 (htrim.trans rfl)
    exact ⟨.blank hstrip hspace hlisted, List.forall_mem_cons.2 ⟨hs.isSegment, hsegments⟩⟩

/-- Parameters are read from the parts that spell them, in which no comma or bracket of the list stands. -/
theorem listed_spelled {vs : List TypedVar} {ts : List Text} (h : SpellsParameters vs ts)
    (hvs : ∀ v ∈ vs, v.IsUnscoped) : Listed ts vs ∧ ∀ t ∈ ts, Scan.IsSegment t := by
  induction h with
  | gaps hgs => exact listed_gaps hgs
  | cons hv hlast _ ih =>
    obtain ⟨hlisted, hsegments⟩ := ih fun x hx => hvs x (List.mem_cons_of_mem _ hx)
    obtain ⟨u, hu, hs⟩ := strips_parameter hv hlast
    obtain ⟨n, hstrip⟩ := hs.strip_eq
    have hread := parameter?_spelled hu (hvs _ List.mem_cons_self)
    exact ⟨.cons hstrip hu.isSpace hread hlisted, List.forall_mem_cons.2 ⟨hs.isSegment, hsegments⟩⟩

end Grammar

end PhpClass
