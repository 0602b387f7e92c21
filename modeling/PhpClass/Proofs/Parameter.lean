import PhpClass.Grammar.Parameter
import PhpClass.Member.Layout
import PhpClass.Proofs.Comment
import PhpClass.Proofs.Head
import PhpClass.Proofs.Item

/-!
# Parameters

A parameter is spelled as its scope, its type, its name with the marks, and its default, with gaps in between
(`Grammar.SpellsParameter`). It is read from each of its spellings with blanks (`Grammar.parameter?_spelled`), and what is
written of a parameter is one of them. Each parameter that is read can be written (`Grammar.parameter?_eq_some`).
-/

namespace PhpClass

open Text

/-! ## Words of parameters -/

theorem Scope.within_keyword (s : Scope) : Within Byte.isIdent s.keyword := by cases s <;> decide

/-- A default that stands in a list of parameters: no comment, strings and brackets complete, and no
comma outside of them. -/
structure IsDefault (t : Text) : Prop where
  ne_nil : t ≠ []
  trim : trim t = t
  strip : Scan.stripLexemes t = .ok ⟨t, 0⟩
  split : Scan.split t = .ok [t]
  bracketed : Scan.bracketed (Scan.inBrackets t) = .ok (Scan.inBrackets t, [])

theorem IsDefault.isItem {t : Text} (h : IsDefault t) : Scan.IsItem t :=
  Scan.isItem_iff.2 ⟨h.strip, h.split, h.bracketed⟩

theorem isDefault_trim {t : Text} (h : Scan.IsItem t) (hne : Text.trim t ≠ []) :
    IsDefault (Text.trim t) := by
  obtain ⟨hs, hp, hb⟩ := Scan.isItem_iff.1 h.trim
  exact ⟨hne, trim_trim t, hs, hp, hb⟩

/-- The marks of a parameter and its name. -/
def IsParameterName (t : Text) : Prop :=
  ∃ reference variadic word, (reference = [] ∨ reference = utf8 "&") ∧
    (variadic = [] ∨ variadic = utf8 "...") ∧ IsIdent word ∧
    t = reference ++ variadic ++ utf8 "$" ++ word

namespace TypedVar

/-- A parameter that can be written in a list of parameters. -/
structure IsParameter (v : TypedVar) : Prop where
  name : IsParameterName v.name
  type_ne_nil : v.type ≠ []
  type : IsType v.type
  /-- The type does not begin with a word that is read as the scope. -/
  unscoped : v.scope = none → ∀ s : Scope, keyword? s.keyword (v.type ++ [Byte.space]) = none
  default : ∀ d ∈ v.defaultValue, IsDefault d
  notStatic : v.isStatic = false

/-- The type of a parameter without a scope does not begin with a word that is read as one. -/
def IsUnscoped (v : TypedVar) : Prop :=
  v.scope = none → ∀ s : Scope, keyword? s.keyword (v.type ++ [Byte.space]) = none

/-- The default of a variable as it is written. -/
def defaultText (v : TypedVar) : Text := v.defaultValue.elim [] fun d => utf8 " = " ++ d

/-- A parameter as it is written. -/
def signature (v : TypedVar) : Text :=
  (v.scope.elim [] fun s => s.keyword ++ [Byte.space]) ++ v.type ++ [Byte.space] ++ v.name ++ v.defaultText

theorem render_declaration (l : Layout) (v : TypedVar) :
    l.render v.declaration = v.type ++ [Byte.space] ++ v.name ++ v.defaultText := by
  unfold declaration defaultText defaultPieces
  cases v.defaultValue <;> simp

theorem render_parameterPieces (l : Layout) (v : TypedVar) :
    l.render v.parameterPieces = l.piece (.indent 2) ++ v.signature := by
  unfold parameterPieces signature
  rw [Layout.render_append, Layout.render_append, render_declaration]
  cases v.scope <;> simp [Scope.pieces]

end TypedVar

namespace Text

theorem apart_blank_of_isType {ty : Text} (h : IsType ty) (hne : ty ≠ []) (t : Text) :
    Apart Byte.isBlank (ty ++ t) := by
  obtain ⟨b, ty, rfl⟩ := List.exists_cons_of_ne_nil hne
  rw [isType_iff, afterType] at h
  rw [List.cons_append, apart_cons]
  split at h
  · next hb =>
    cases hblank : Byte.isBlank b with
    | false => rfl
    | true => rw [Byte.isType_of_isBlank b hblank] at hb; cases hb
  · split at h
    · next hb =>
      simp only [Bool.and_eq_true, decide_eq_true_eq] at hb
      rw [hb.1]
      decide
    · cases h

end Text

namespace Grammar

/-! ## Spellings of parameters -/

section Spelling

variable (Gap : Text → Prop)

/-- A scope with a gap behind it, or none. -/
inductive SpellsScope : Option Scope → Text → Prop where
  | none : SpellsScope none []
  | some {s : Scope} {g : Text} (hg : Gap g) (hne : g ≠ []) : SpellsScope (some s) (s.keyword ++ g)

/-- A type with a gap behind it. The general type need not be spelled. -/
inductive SpellsType : Text → Text → Prop where
  | none : SpellsType mixed []
  | some {type g : Text} (hne : type ≠ []) (htype : IsType type) (hg : Gap g) : SpellsType type (type ++ g)

/-- A name with its marks. A gap may stand behind the `&` only. -/
inductive SpellsName : Text → Text → Prop where
  | value {d w : Text} (hd : d = [] ∨ d = utf8 "...") (hw : IsIdent w) :
      SpellsName (d ++ (utf8 "$" ++ w)) (d ++ (utf8 "$" ++ w))
  | reference {g d w : Text} (hg : Gap g) (hd : d = [] ∨ d = utf8 "...") (hw : IsIdent w) :
      SpellsName (utf8 "&" ++ (d ++ (utf8 "$" ++ w))) (utf8 "&" ++ (g ++ (d ++ (utf8 "$" ++ w))))

/-- A default between gaps, or none. -/
inductive SpellsDefault : Option Text → Text → Prop where
  | none : SpellsDefault none []
  | some {g d g' : Text} (hg : Gap g) (hd : IsDefault d) (hg' : Gap g') :
      SpellsDefault (some d) (utf8 "=" ++ (g ++ (d ++ g')))

/-- A parameter with gaps between its parts. -/
inductive SpellsParameter : TypedVar → Text → Prop where
  | mk {v : TypedVar} {g scope type name g' default : Text} (hg : Gap g) (hscope : SpellsScope Gap v.scope scope)
      (htype : SpellsType Gap v.type type) (hname : SpellsName Gap v.name name) (hg' : Gap g')
      (hdefault : SpellsDefault Gap v.defaultValue default) (hstatic : v.isStatic = false) :
      SpellsParameter v (g ++ (scope ++ (type ++ (name ++ (g' ++ default)))))

end Spelling

/-! ## Reading what is spelled with blanks -/

variable {w t u rest : Text}

theorem promotion_keyword (s : Scope) (hw : IsBlanks w) (ht : Apart Byte.isBlank t) :
    promotion (s.keyword ++ (w ++ t)) = (some s, t) := by
  have hblank := hw.apart t
  have hself : keyword? s.keyword (s.keyword ++ (w ++ t)) = some (w ++ t) := keyword?_eq_some.2 ⟨rfl, hblank⟩
  have hother : ∀ s' : Scope, s'.keyword ≠ s.keyword → keyword? s'.keyword (s.keyword ++ (w ++ t)) = none :=
    fun s' hne => keyword?_eq_none_of_ne s'.within_keyword s.within_keyword hblank hne
  have hfind : (Scope.all.findSome? fun s' =>
      (keyword? s'.keyword (s.keyword ++ (w ++ t))).map fun rest => (s', rest)) = some (s, w ++ t) := by
    unfold Scope.all
    cases s
    · simp [hself]
    · simp [hself, hother .pub (by decide)]
    · simp [hself, hother .pub (by decide), hother .priv (by decide)]
  unfold promotion
  rw [hfind]
  dsimp only
  rw [skipBlanks_append hw.2 ht]

theorem promotion_none (h : ∀ s : Scope, keyword? s.keyword t = none) : promotion t = (none, t) := by
  unfold promotion Scope.all
  simp [h]

theorem promotion_spelled {scope : Option Scope} (hs : SpellsScope (Within Byte.isBlank) scope t)
    (hu : Apart Byte.isBlank u) (hnone : scope = none → ∀ s : Scope, keyword? s.keyword u = none) :
    promotion (t ++ u) = (scope, u) ∧ Apart Byte.isBlank (t ++ u) := by
  cases hs with
  | none => exact ⟨promotion_none (hnone rfl), hu⟩
  | @some s w hw hne =>
    rw [List.append_assoc]
    exact ⟨promotion_keyword s ⟨hne, hw⟩ hu, Modifiers.apart_keyword (.scope s) _⟩

theorem mark_self (m t : Text) : mark m (m ++ t) = (m, t) := by
  unfold mark
  rw [after?_append]

/-- The name of a parameter begins with a byte that neither is a blank nor goes on with a type. -/
theorem SpellsName.head {name : Text} (hname : SpellsName (Within Byte.isBlank) name t) (u : Text) :
    Apart Byte.isBlank (t ++ u) ∧ Apart Byte.isIdent (t ++ u) ∧ afterType (t ++ u) = t ++ u := by
  cases hname with
  | value hd _ =>
    rcases hd with rfl | rfl <;>
      exact ⟨apart_cons.2 (by decide), apart_cons.2 (by decide), afterType_cons (by decide) (by decide) _⟩
  | @reference w d word hw hd _ =>
    have hword : Apart Byte.isIdent (d ++ (utf8 "$" ++ word) ++ u) := by
      rcases hd with rfl | rfl <;> exact apart_cons.2 (by decide)
    refine ⟨apart_cons.2 (by decide), apart_cons.2 (by decide), ?_⟩
    have hend := afterType_and (apart_blanks hw hword)
    simpa [show utf8 "&" = [ascii '&'] by decide] using hend

/-- What is read behind the type of a parameter. -/
theorem name_spelled {name : Text} (hname : SpellsName (Within Byte.isBlank) name t) (hrest : Apart Byte.isIdent rest) :
    ∃ reference variadic word r, name = reference ++ variadic ++ utf8 "$" ++ word ∧
      mark (utf8 "&") (t ++ rest) = (reference, r) ∧
      mark (utf8 "...") (if reference.isEmpty then r else skipBlanks r) = (variadic, utf8 "$" ++ (word ++ rest)) ∧
      ident? (word ++ rest) = some (word, rest) := by
  have hvariadic : ∀ {variadic word : Text}, variadic = [] ∨ variadic = utf8 "..." →
      mark (utf8 "...") (variadic ++ (utf8 "$" ++ (word ++ rest))) = (variadic, utf8 "$" ++ (word ++ rest)) := by
    rintro variadic word (rfl | rfl)
    · rfl
    · exact mark_self _ _
  cases hname with
  | @value variadic word hd hw =>
    refine ⟨[], variadic, word, variadic ++ (utf8 "$" ++ (word ++ rest)), by simp, ?_, hvariadic hd,
      ident?_append hw hrest⟩
    rcases hd with rfl | rfl <;> simp only [List.append_assoc] <;> rfl
  | @reference w variadic word hblank hd hw =>
    refine ⟨utf8 "&", variadic, word, w ++ (variadic ++ (utf8 "$" ++ (word ++ rest))), by simp, ?_, ?_,
      ident?_append hw hrest⟩
    · simp only [List.append_assoc]
      exact mark_self _ _
    · have hap : Apart Byte.isBlank (variadic ++ (utf8 "$" ++ (word ++ rest))) := by
        rcases hd with rfl | rfl <;> exact apart_cons.2 (by decide)
      rw [if_neg (by decide), skipBlanks_append hblank hap]
      exact hvariadic hd

theorem default_spelled {d : Option Text} (hd : SpellsDefault (Within Byte.isBlank) d t) (hw : Within Byte.isBlank w) :
    parameterDefault? (skipBlanks (w ++ t)) = some d ∧ Apart Byte.isIdent (w ++ t) := by
  cases hd with
  | none =>
    rw [skipBlanks_append hw (apart_nil _)]
    exact ⟨rfl, apart_blanks hw (apart_nil _)⟩
  | @some w₁ d w₂ h₁ hdef h₂ =>
    have hvis := visible?_blanks h₁ hdef.trim hdef.ne_nil h₂
    have hequals : utf8 "=" ++ (w₁ ++ (d ++ w₂)) = ascii '=' :: (w₁ ++ d ++ w₂) := by
      rw [List.append_assoc]
      rfl
    refine ⟨?_, apart_blanks hw (apart_cons.2 (by decide))⟩
    rw [hequals, skipBlanks_append hw (apart_cons.2 (by decide)), parameterDefault?, if_pos rfl, hvis]
    rfl

/-- The type is read up to the blanks in front of the name. -/
theorem type_spelled {type : Text} (ht : SpellsType (Within Byte.isBlank) type t) (hu : afterType u = u) :
    ∃ ty w, Text.type (t ++ u) = (ty, w ++ u) ∧ Within Byte.isBlank w ∧ typeOrMixed ty = type := by
  cases ht with
  | none =>
    refine ⟨[], [], ?_, within_nil _, rfl⟩
    exact type_append_end (by decide) hu
  | @some type w hne htype hw =>
    refine ⟨type, w, ?_, hw, if_neg (by simpa using hne)⟩
    have hend : afterType (w ++ u) = w ++ u := by
      by_cases hnil : w = []
      · rw [hnil, List.nil_append, hu]
      · exact IsBlanks.afterType ⟨hnil, hw⟩ u
    rw [List.append_assoc]
    exact type_append_end htype hend

theorem apart_type {type : Text} (ht : SpellsType (Within Byte.isBlank) type t) (hu : Apart Byte.isBlank u) :
    Apart Byte.isBlank (t ++ u) := by
  cases ht with
  | none => exact hu
  | some hne htype _ =>
    rw [List.append_assoc]
    exact apart_blank_of_isType htype hne _

/-- A type that begins with no scope is not read as one. -/
theorem keyword?_type {type : Text} {s : Scope} (ht : SpellsType (Within Byte.isBlank) type t)
    (hs : keyword? s.keyword (type ++ [Byte.space]) = none) (hu : Apart Byte.isIdent u) :
    keyword? s.keyword (t ++ u) = none := by
  cases ht with
  | none => exact keyword?_eq_none_of_apart (by cases s <;> decide) s.within_keyword hu
  | some _ _ hw =>
    rw [List.append_assoc]
    exact keyword?_eq_none_append s.within_keyword hs (apart_blanks hw hu)

/-- A parameter is read from each of its spellings with blanks. -/
theorem parameter?_spelled {v : TypedVar} (ht : SpellsParameter (Within Byte.isBlank) v t) (hv : v.IsUnscoped) :
    parameter? t = some v := by
  cases ht with
  | @mk w scope type name w' default hw hscope htype hname hw' hdefault hstatic =>
    obtain ⟨hread, hident⟩ := default_spelled hdefault hw'
    obtain ⟨hblank, hapart, hend⟩ := hname.head (w' ++ default)
    obtain ⟨ty, w₁, hty, hw₁, htypeOrMixed⟩ := type_spelled htype hend
    obtain ⟨reference, variadic, word, r, he, hmark, hvariadic, hword⟩ := name_spelled hname hident
    obtain ⟨hprom, hfront⟩ := promotion_spelled hscope (apart_type htype hblank)
      fun hs s => keyword?_type htype (hv hs s) hapart
    unfold parameter?
    rw [skipBlanks_append hw hfront, hprom]
    dsimp only
    rw [hty]
    dsimp only
    rw [skipBlanks_append hw₁ hblank, hmark]
    dsimp only
    rw [hvariadic]
    dsimp only
    rw [after?_append, Option.bind_eq_bind, Option.bind_some, hword, Option.bind_eq_bind, Option.bind_some]
    dsimp only
    rw [hread, Option.bind_eq_bind, Option.bind_some, ← he, htypeOrMixed]
    cases v
    cases hstatic
    rfl

/-- What is written of a parameter, between blanks, is a spelling of it. -/
theorem spells_signature {v : TypedVar} (h : v.IsParameter) {w₁ w₂ : Text} (h₁ : Within Byte.isBlank w₁)
    (h₂ : Within Byte.isBlank w₂) : SpellsParameter (Within Byte.isBlank) v (w₁ ++ v.signature ++ w₂) := by
  have hscope : SpellsScope (Within Byte.isBlank) v.scope (v.scope.elim [] fun s => s.keyword ++ [Byte.space]) := by
    cases v.scope with
    | none => exact .none
    | some s => exact .some isBlank_space (by decide)
  have hname : SpellsName (Within Byte.isBlank) v.name v.name := by
    obtain ⟨reference, variadic, word, href, hvar, hword, he⟩ := h.name
    rw [he]
    rcases href with rfl | rfl
    · simpa using SpellsName.value hvar hword
    · simpa using SpellsName.reference (within_nil Byte.isBlank) hvar hword
  have htype := SpellsType.some h.type_ne_nil h.type isBlank_space
  -- The space in front of the `=` stands behind the name.
  obtain ⟨w, d, hw, hd, he⟩ : ∃ w d, Within Byte.isBlank w ∧ SpellsDefault (Within Byte.isBlank) v.defaultValue d ∧
      v.defaultText ++ w₂ = w ++ d := by
    unfold TypedVar.defaultText
    cases hd : v.defaultValue with
    | none => exact ⟨w₂, [], h₂, .none, by simp⟩
    | some d =>
      refine ⟨[Byte.space], _, isBlank_space, .some isBlank_space (h.default d hd) h₂, ?_⟩
      simp [show utf8 " = " = [Byte.space] ++ (utf8 "=" ++ [Byte.space]) by decide]
  have hspelled := SpellsParameter.mk h₁ hscope htype hname hw hd h.notStatic
  rw [← he] at hspelled
  simpa [TypedVar.signature] using hspelled

/-- A parameter that can be written is read from what is written of it. -/
theorem parameter?_signature {v : TypedVar} (h : v.IsParameter) {w₁ w₂ : Text}
    (h₁ : Within Byte.isBlank w₁) (h₂ : Within Byte.isBlank w₂) :
    parameter? (w₁ ++ v.signature ++ w₂) = some v :=
  parameter?_spelled (spells_signature h h₁ h₂) h.unscoped

/-! ## What is read can be written -/

/-- The text goes on with `rest` behind bytes that no scanner of code takes notice of. -/
def PlainTo (rest t : Text) : Prop := ∃ w, t = w ++ rest ∧ Within Byte.isPlain w

theorem PlainTo.refl (t : Text) : PlainTo t t := ⟨[], rfl, within_nil _⟩

theorem PlainTo.trans {a b c : Text} (hab : PlainTo a b) (hbc : PlainTo b c) : PlainTo a c := by
  obtain ⟨w, rfl, hw⟩ := hab
  obtain ⟨w', rfl, hw'⟩ := hbc
  exact ⟨w' ++ w, by simp, by simp [hw, hw']⟩

theorem plainTo_of_within {p : UInt8 → Bool} {w : Text} (hw : Within p w)
    (hp : ∀ b, p b = true → Byte.isPlain b = true) (rest : Text) : PlainTo rest (w ++ rest) :=
  ⟨w, rfl, hw.mono hp⟩

theorem plainTo_skipBlanks (t : Text) : PlainTo (skipBlanks t) t := by
  obtain ⟨w, ht, hw, -⟩ := exists_blanks t
  exact ⟨w, ht, hw.mono Byte.isPlain_of_isBlank⟩

theorem plainTo_promotion {t rest : Text} {scope : Option Scope} (h : promotion t = (scope, rest)) :
    PlainTo rest t ∧ (scope = none → ∀ s : Scope, keyword? s.keyword rest = none) := by
  unfold promotion at h
  split at h
  · next s r hs =>
    cases h
    obtain ⟨s', -, hs'⟩ := List.exists_of_findSome?_eq_some hs
    obtain ⟨r', hr, he⟩ := Option.map_eq_some_iff.1 hs'
    cases he
    rw [keyword?_eq_append hr]
    refine ⟨(plainTo_skipBlanks _).trans ?_, nofun⟩
    exact plainTo_of_within s.within_keyword Byte.isPlain_of_isIdent _
  · next hs =>
    cases h
    refine ⟨.refl t, fun _ s => ?_⟩
    rw [List.findSome?_eq_none_iff] at hs
    simpa using hs s (by cases s <;> decide)

theorem plain_of_isType {ty : Text} (h : IsType ty) : Within Byte.isPlain ty := by
  rw [isType_iff] at h
  induction ty with
  | nil => exact within_nil _
  | cons b ty ih =>
    rw [afterType] at h
    rw [within_cons]
    split at h
    · next hb => exact ⟨Byte.isPlain_of_isType b hb, ih h⟩
    · split at h
      · next hb =>
        simp only [Bool.and_eq_true, decide_eq_true_eq] at hb
        exact ⟨hb.1 ▸ by decide, ih h⟩
      · cases h

theorem plainTo_type {t ty rest : Text} (h : type t = (ty, rest)) : PlainTo rest t := by
  obtain ⟨rfl, hty, -⟩ := type_eq h
  exact ⟨ty, rfl, plain_of_isType hty⟩

theorem plainTo_mark {m t read rest : Text} (hm : Within Byte.isPlain m) (h : mark m t = (read, rest)) :
    PlainTo rest t ∧ (read = [] ∨ read = m) := by
  unfold mark at h
  split at h
  · next hr =>
    cases h
    rw [after?_eq_some.1 hr]
    exact ⟨⟨m, rfl, hm⟩, .inr rfl⟩
  · cases h
    exact ⟨.refl t, .inl rfl⟩

theorem parameterDefault?_eq_some {t : Text} {d : Option Text} (h : parameterDefault? t = some d) :
    (t = [] ∧ d = none) ∨ ∃ value, t = ascii '=' :: value ∧ d = some (trim value) ∧ trim value ≠ [] := by
  unfold parameterDefault? at h
  split at h
  · cases h
    exact .inl ⟨rfl, rfl⟩
  · next b value =>
    split at h
    · next hb =>
      subst hb
      obtain ⟨v, hv, he⟩ := Option.map_eq_some_iff.1 h
      obtain ⟨rfl, hne⟩ := visible?_eq_some.1 hv
      exact .inr ⟨value, rfl, he.symm, hne⟩
    · cases h

/-- What is read as a parameter can be written. -/
theorem parameter?_eq_some {code : Text} {v : TypedVar} (hcode : Scan.IsItem code)
    (h : parameter? code = some v) : v.IsParameter := by
  rcases hprom : promotion (skipBlanks code) with ⟨scope, t₁⟩
  rcases htype : type t₁ with ⟨ty, t₂⟩
  rcases href : mark (utf8 "&") (skipBlanks t₂) with ⟨reference, t₃⟩
  rcases hvar : mark (utf8 "...") (if reference.isEmpty then t₃ else skipBlanks t₃) with ⟨variadic, t₄⟩
  unfold parameter? at h
  rw [hprom] at h
  dsimp only at h
  rw [htype] at h
  dsimp only at h
  rw [href] at h
  dsimp only at h
  rw [hvar] at h
  dsimp only at h
  obtain ⟨t₅, hdollar, h⟩ := Option.bind_eq_some_iff.1 h
  obtain ⟨⟨word, t₆⟩, hident, h⟩ := Option.bind_eq_some_iff.1 h
  obtain ⟨d, hdef, h⟩ := Option.bind_eq_some_iff.1 h
  cases h
  obtain ⟨hp₁, hunscoped⟩ := plainTo_promotion hprom
  obtain ⟨rfl, hty, hap⟩ := type_eq htype
  obtain ⟨hp₃, href'⟩ := plainTo_mark (by decide) href
  obtain ⟨hp₄, hvar'⟩ := plainTo_mark (by decide) hvar
  obtain ⟨rfl, hword, -⟩ := ident?_eq_some hident
  have hp₄ : PlainTo t₄ t₃ := by
    split at hp₄
    · exact hp₄
    · exact hp₄.trans (plainTo_skipBlanks t₃)
  have hp₅ : PlainTo (word ++ t₆) t₄ := ⟨utf8 "$", after?_eq_some.1 hdollar, by decide⟩
  -- Everything in front of the default is plain.
  have hplain : PlainTo (skipBlanks t₆) code := by
    refine (plainTo_skipBlanks t₆).trans ?_
    refine (plainTo_of_within hword.within Byte.isPlain_of_isIdent t₆).trans ?_
    refine hp₅.trans <| hp₄.trans <| hp₃.trans <| (plainTo_skipBlanks t₂).trans ?_
    exact (plainTo_type htype).trans <| hp₁.trans (plainTo_skipBlanks code)
  obtain ⟨hne, htype'⟩ := isType_typeOrMixed hty
  refine ⟨⟨reference, variadic, word, href', hvar', hword, rfl⟩, hne, htype', ?_, ?_, rfl⟩
  · intro hs s
    have hr : Apart Byte.isIdent t₂ := by
      cases t₂ with
      | nil => exact apart_nil _
      | cons b t => exact apart_cons.2 (Byte.isIdent_of_isType_eq_false b (by simpa using hap))
    exact keyword?_typeOrMixed s.within_keyword (by cases s <;> decide) hr (hunscoped hs s)
  · rintro d' rfl
    rcases parameterDefault?_eq_some hdef with ⟨-, hd⟩ | ⟨value, hvalue, hd, hne⟩
    · cases hd
    · cases hd
      obtain ⟨w, rfl, hw⟩ := hplain
      rw [hvalue] at hcode
      have hitem : Scan.IsItem value := by
        refine Scan.IsItem.of_plain_append (w := w ++ [ascii '=']) ?_ ?_
        · rw [within_append]
          exact ⟨hw, by decide⟩
        · simpa using hcode
      exact isDefault_trim hitem hne

end Grammar

end PhpClass
