import PhpClass.Proofs.Word

/-!
# Heads of members

The head of a member is decided in front of the first byte that no head holds, so what stands behind that
byte does not matter (`Grammar.head?_append_stop`). The heads that are written read back as themselves:
modifiers in any order that is allowed, with any blanks behind each (`Modifiers.readFrom_spelled`), and behind them the
words that tell the kinds of members apart.
-/

namespace PhpClass

open Text

namespace Modifier

theorem within_keyword (m : Modifier) : Within Byte.isIdent m.keyword := by
  cases m with
  | scope s => cases s <;> decide
  | static => decide
  | abstract => decide
  | final => decide

theorem keyword_injective {m n : Modifier} (h : m.keyword = n.keyword) : m = n := by
  revert h
  cases m with
  | scope s => cases n with
    | scope t => revert s t; intro s t; cases s <;> cases t <;> decide
    | static => cases s <;> decide
    | abstract => cases s <;> decide
    | final => cases s <;> decide
  | static => cases n with
    | scope t => cases t <;> decide
    | _ => decide
  | abstract => cases n with
    | scope t => cases t <;> decide
    | _ => decide
  | final => cases n with
    | scope t => cases t <;> decide
    | _ => decide

end Modifier

namespace Modifiers

/-! ## What modifiers look at -/

theorem next?_append_stop {c : UInt8} (hc : Byte.isStop c = true) (allowed : List Modifier)
    (ms : Modifiers) (s rest : Text) :
    next? allowed ms (s ++ c :: rest) =
      (next? allowed ms s).map fun p => (p.1, p.2 ++ c :: rest) := by
  obtain ⟨hb, -, hi, -⟩ := Byte.isStop_spec c hc
  unfold next?
  rw [List.map_findSome?]
  congr 1
  funext m
  rw [keyword?_append_stop m.within_keyword hi]
  simp [Function.comp_def, dropWhile_append_stop hb]

theorem readFrom_of_next? {allowed : List Modifier} {ms : Modifiers} {t rest : Text} {m : Modifier}
    (h : next? allowed ms t = some (m, rest)) :
    readFrom allowed ms t = readFrom allowed (ms.add m) rest := by
  rw [readFrom]
  split
  · next hn => rw [h] at hn; cases hn; rfl
  · next hn => rw [h] at hn; cases hn

theorem readFrom_of_next?_eq_none {allowed : List Modifier} {ms : Modifiers} {t : Text}
    (h : next? allowed ms t = none) : readFrom allowed ms t = (ms, t) := by
  rw [readFrom]
  split
  · next hn => rw [h] at hn; cases hn
  · rfl

theorem readFrom_append_stop {c : UInt8} (hc : Byte.isStop c = true) (allowed : List Modifier)
    (ms : Modifiers) (s rest : Text) :
    readFrom allowed ms (s ++ c :: rest) =
      ((readFrom allowed ms s).1, (readFrom allowed ms s).2 ++ c :: rest) := by
  fun_induction readFrom allowed ms s with
  | case1 ms s m r h ih =>
    rw [readFrom_of_next? (m := m), ih]
    rw [next?_append_stop hc, h]
    rfl
  | case2 ms s h =>
    rw [readFrom_of_next?_eq_none]
    rw [next?_append_stop hc, h]
    rfl

theorem read_append_stop {c : UInt8} (hc : Byte.isStop c = true) (allowed : List Modifier)
    (s rest : Text) :
    read allowed (s ++ c :: rest) = ((read allowed s).1, (read allowed s).2 ++ c :: rest) :=
  readFrom_append_stop hc allowed {} s rest

/-! ## What modifiers leave -/

theorem next?_eq_none_iff {allowed : List Modifier} {ms : Modifiers} {t : Text} :
    next? allowed ms t = none ↔
      ∀ m ∈ allowed, ms.admits m = true → keyword? m.keyword t = none := by
  simp [next?, List.findSome?_eq_none_iff]

/-- No further modifier stands where reading modifiers stops. -/
theorem next?_readFrom (allowed : List Modifier) (ms : Modifiers) (t : Text) :
    next? allowed (readFrom allowed ms t).1 (readFrom allowed ms t).2 = none := by
  fun_induction readFrom allowed ms t with
  | case1 ms t m r h ih => exact ih
  | case2 ms t h => exact h

/-! ## Reading modifiers that are spelled -/

theorem next?_keyword {allowed : List Modifier} {ms : Modifiers} {m : Modifier} {w t : Text}
    (hm : m ∈ allowed) (hadmits : ms.admits m = true) (hw : IsBlanks w) (ht : Apart Byte.isBlank t) :
    next? allowed ms (m.keyword ++ (w ++ t)) = some (m, t) := by
  obtain ⟨l₁, l₂, hl, hfirst⟩ := List.eq_append_cons_of_mem (List.mem_filter.2 ⟨hm, hadmits⟩)
  unfold next?
  rw [List.findSome?_eq_some_iff]
  refine ⟨l₁, m, l₂, hl, ?_, ?_⟩
  · rw [keyword?_eq_some.2 ⟨rfl, hw.apart t⟩, Option.map_some, dropWhile_append hw.2 ht]
  · intro n hn
    rw [keyword?_eq_none_of_ne n.within_keyword m.within_keyword (hw.apart t)]
    · rfl
    · intro he
      exact hfirst (Modifier.keyword_injective he ▸ hn)

/-- Modifiers one after the other, with blanks behind each. -/
inductive Spells : List Modifier → Text → Prop where
  | nil : Spells [] []
  | cons {m : Modifier} {l : List Modifier} {w t : Text} (hw : IsBlanks w) (ht : Spells l t) :
      Spells (m :: l) (m.keyword ++ (w ++ t))

/-- Modifiers as they are written, a space behind each. -/
def written (l : List Modifier) : Text := l.flatMap fun m => m.keyword ++ [Byte.space]

theorem spells_written (l : List Modifier) : Spells l (written l) := by
  induction l with
  | nil => exact .nil
  | cons m l ih =>
    rw [written, List.flatMap_cons, List.append_assoc]
    exact .cons isBlanks_space ih

theorem apart_keyword (m : Modifier) (t : Text) : Apart Byte.isBlank (m.keyword ++ t) := by
  cases hk : m.keyword with
  | nil => exact absurd hk m.keyword_ne_nil
  | cons b w =>
    have hb := m.within_keyword b (hk ▸ List.mem_cons_self)
    simpa using Byte.isBlank_of_isIdent b hb

theorem Spells.apart {l : List Modifier} {s t : Text} (hs : Spells l s) (ht : Apart Byte.isBlank t) :
    Apart Byte.isBlank (s ++ t) := by
  cases hs with
  | nil => exact ht
  | @cons m _ _ _ _ _ =>
    rw [List.append_assoc]
    exact apart_keyword m _

/-- Whether modifiers may follow one after the other. -/
def admitsAll (ms : Modifiers) : List Modifier → Bool
  | [] => true
  | m :: l => ms.admits m && (ms.add m).admitsAll l

/-- Modifiers that may follow those read before are read one after the other. -/
theorem readFrom_spelled {allowed : List Modifier} {l : List Modifier} {ms : Modifiers} {s t : Text}
    (hs : Spells l s) (hl : ∀ m ∈ l, m ∈ allowed) (hadmits : ms.admitsAll l = true) (ht : Apart Byte.isBlank t)
    (hend : next? allowed (l.foldl add ms) t = none) :
    readFrom allowed ms (s ++ t) = (l.foldl add ms, t) := by
  induction hs generalizing ms with
  | nil => exact readFrom_of_next?_eq_none hend
  | @cons m l w s hw hs ih =>
    rw [admitsAll, Bool.and_eq_true] at hadmits
    have hnext := next?_keyword (hl m List.mem_cons_self) hadmits.1 hw (hs.apart ht)
    rw [List.append_assoc, List.append_assoc, readFrom_of_next? hnext, List.foldl_cons]
    exact ih (fun n hn => hl n (List.mem_cons_of_mem _ hn)) hadmits.2 hend

/-- A word that is no modifier ends the modifiers. -/
theorem next?_word {allowed : List Modifier} {ms : Modifiers} {word rest : Text}
    (hword : Within Byte.isIdent word)
    (hother : ∀ m ∈ allowed, ms.admits m = true → m.keyword ≠ word) (hrest : Apart Byte.isIdent rest) :
    next? allowed ms (word ++ rest) = none :=
  next?_eq_none_iff.2 fun m hm hadmits =>
    keyword?_eq_none_of_ne m.within_keyword hword hrest (hother m hm hadmits)

theorem read_spelled_word {allowed : List Modifier} {l : List Modifier} {s word rest : Text} (hs : Spells l s)
    (hl : ∀ m ∈ l, m ∈ allowed) (hadmits : admitsAll {} l = true) (hword : IsIdent word)
    (hother : ∀ m ∈ allowed, (l.foldl add {}).admits m = true → m.keyword ≠ word) (hrest : Apart Byte.isIdent rest) :
    read allowed (s ++ (word ++ rest)) = (l.foldl add {}, word ++ rest) :=
  readFrom_spelled hs hl hadmits (hword.apart_blank.append hword.1) (next?_word hword.within hother hrest)

end Modifiers

namespace Grammar

theorem skipBlanks_append {b t : Text} (hb : Within Byte.isBlank b) (ht : Apart Byte.isBlank t) :
    skipBlanks (b ++ t) = t := dropWhile_append hb ht

theorem exists_blanks (t : Text) :
    ∃ b, t = b ++ skipBlanks t ∧ Within Byte.isBlank b ∧ Apart Byte.isBlank (skipBlanks t) :=
  exists_run Byte.isBlank t

theorem ident?_eq_some {t word rest : Text} (h : ident? t = some (word, rest)) :
    t = word ++ rest ∧ IsIdent word ∧ Apart Byte.isIdent rest := by
  unfold ident? at h
  dsimp only at h
  split at h
  · cases h
  · next hne =>
    cases h
    have hne : (Text.ident t).1 ≠ [] := by simpa using hne
    obtain ⟨ht, hw, hd, hr⟩ := ident_eq (t := t) rfl hne
    exact ⟨ht, isIdent_iff.2 ⟨hne, hw, hd⟩, hr⟩

theorem ident_eq_ok {t w rest : Text} {what : Expected} (h : ident what t = .ok (w, rest)) :
    t = w ++ rest ∧ IsIdent w ∧ Apart Byte.isIdent rest := by
  unfold ident at h
  split at h
  · next hi => cases h; exact ident?_eq_some hi
  · cases h

theorem ident?_append {w rest : Text} (hw : IsIdent w) (hr : Apart Byte.isIdent rest) :
    ident? (w ++ rest) = some (w, rest) := by
  have hne := (isIdent_iff.1 hw).1
  unfold ident?
  rw [ident_append hw hr]
  simp [hne]

theorem ident_of_isIdent (what : Expected) {w : Text} (hw : IsIdent w) {rest : Text}
    (hr : Apart Byte.isIdent rest) : ident what (w ++ rest) = .ok (w, rest) := by
  unfold ident
  rw [ident?_append hw hr]

theorem skipBlanks_word {w : Text} (hw : IsIdent w) (rest : Text) : skipBlanks (w ++ rest) = w ++ rest :=
  dropWhile_of_apart (hw.apart_blank.append hw.1)

theorem skipBlanks_space {w : Text} (hw : IsIdent w) (rest : Text) :
    skipBlanks (Byte.space :: (w ++ rest)) = w ++ rest :=
  skipBlanks_append (b := [Byte.space]) (by decide) (hw.apart_blank.append hw.1)

/-- The type of a variable, with the general one in the place of a missing one. -/
theorem isType_typeOrMixed {ty : Text} (h : IsType ty) :
    typeOrMixed ty ≠ [] ∧ IsType (typeOrMixed ty) := by
  unfold typeOrMixed
  split
  · exact ⟨by decide, isType_of_within (by decide)⟩
  · next hne => exact ⟨by simpa using hne, h⟩

/-- A keyword that does not stand in front of a type is no part of it. -/
theorem keyword?_typeOrMixed {word ty rest : Text} (hword : Within Byte.isIdent word)
    (hne : word ≠ mixed) (hr : Apart Byte.isIdent rest) (h : keyword? word (ty ++ rest) = none) :
    keyword? word (typeOrMixed ty ++ [Byte.space]) = none := by
  have hspace : Apart Byte.isIdent [Byte.space] := apart_cons.2 (by decide)
  unfold typeOrMixed
  split
  · exact keyword?_eq_none_of_ne hword (by decide) hspace hne
  · cases hk : keyword? word (ty ++ [Byte.space]) with
    | none => rfl
    | some r =>
      have := keyword?_isSome_append hword hspace hr (Option.isSome_of_eq_some hk)
      rw [h] at this
      cases this

/-! ## What a head looks at -/

theorem propertyHead?_append_stop {c : UInt8} (hc : Byte.isStop c = true) (s rest : Text) :
    propertyHead? (s ++ c :: rest) =
      (propertyHead? s).map fun p => (p.1, p.2 ++ c :: rest) := by
  obtain ⟨hb, ht, -, hand, hdollar⟩ := Byte.isStop_spec c hc
  have hmem : c ∉ utf8 "$" := by
    rw [show utf8 "$" = [ascii '$'] by decide]
    simpa using hdollar
  unfold propertyHead?
  rw [Modifiers.read_append_stop hc]
  dsimp only
  rw [type_append_stop ht hand]
  split
  · rfl
  · unfold skipBlanks
    rw [dropWhile_append_stop hb, after?_append_stop hmem]
    simp [Function.comp_def]

/-- Modifiers and a keyword behind them. -/
theorem keywordHead?_append_stop {c : UInt8} (hc : Byte.isStop c = true) {word : Text}
    (hword : Within Byte.isIdent word) (allowed : List Modifier) (make : Modifiers → Head)
    (s rest : Text) :
    ((keyword? word (Modifiers.read allowed (s ++ c :: rest)).2).map fun r =>
        (make (Modifiers.read allowed (s ++ c :: rest)).1, r)) =
      ((keyword? word (Modifiers.read allowed s).2).map fun r =>
        (make (Modifiers.read allowed s).1, r)).map fun p => (p.1, p.2 ++ c :: rest) := by
  rw [Modifiers.read_append_stop hc, keyword?_append_stop hword (Byte.isStop_spec c hc).2.2.1]
  simp [Function.comp_def]

/-- The head of a member does not depend on what stands behind the first byte that no head holds. -/
theorem head?_append_stop {c : UInt8} (hc : Byte.isStop c = true) (s rest : Text) :
    head? (s ++ c :: rest) = (head? s).map fun p => (p.1, p.2 ++ c :: rest) := by
  have hconst : constantHead? (s ++ c :: rest) =
      (constantHead? s).map fun p => (p.1, p.2 ++ c :: rest) :=
    keywordHead?_append_stop hc (by decide) Modifier.ofConstant Head.constant s rest
  have hmethod : methodHead? (s ++ c :: rest) =
      (methodHead? s).map fun p => (p.1, p.2 ++ c :: rest) :=
    keywordHead?_append_stop hc (by decide) Modifier.ofMethod Head.method s rest
  have htrait : traitHead? (s ++ c :: rest) =
      (traitHead? s).map fun p => (p.1, p.2 ++ c :: rest) := by
    unfold traitHead?
    rw [keyword?_append_stop (by decide) (Byte.isStop_spec c hc).2.2.1]
    simp [Function.comp_def]
  unfold head?
  rw [propertyHead?_append_stop hc, hconst, hmethod, htrait]
  cases propertyHead? s with
  | some p => rfl
  | none =>
    cases constantHead? s with
    | some p => rfl
    | none => cases methodHead? s <;> rfl

/-- What a head is read from in front of a byte that no head holds. -/
theorem head?_stop {t s rest : Text} {head : Head} {c : UInt8} (hc : Byte.isStop c = true)
    (h : head? t = some (head, s ++ c :: rest)) :
    ∃ p, t = p ++ (s ++ c :: rest) ∧ ∀ more, head? (p ++ (s ++ c :: more)) = some (head, s ++ c :: more) := by
  obtain ⟨p, ht⟩ := (head?_suffix h).1
  refine ⟨p, ht.symm, fun more => ?_⟩
  have hstop := fun r => head?_append_stop hc (p ++ s) r
  simp only [List.append_assoc] at hstop
  rw [← ht, hstop rest] at h
  rw [hstop more]
  obtain ⟨q, hq, he⟩ := Option.map_eq_some_iff.1 h
  rw [Prod.mk.injEq] at he
  obtain ⟨rfl, he⟩ := he
  rw [hq, Option.map_some, (List.append_inj' he rfl).1]

/-! ## What a head says -/

/-- A type that can be written behind the modifiers of a property. -/
structure IsPropertyType (isStatic : Bool) (type : Text) : Prop where
  ne_nil : type ≠ []
  isType : IsType type
  notWord : type ∉ notTypes
  /-- The type does not begin with a word that is read as a modifier. -/
  notStatic : isStatic = false → keyword? (utf8 "static") (type ++ [Byte.space]) = none

theorem propertyHead?_eq_some {t rest : Text} {head : Head} (h : propertyHead? t = some (head, rest)) :
    ∃ ms type, head = .property ms type ∧ IsPropertyType ms.isStatic (typeOrMixed type) := by
  unfold propertyHead? at h
  rcases hread : Modifiers.read Modifier.ofProperty t with ⟨ms, t₁⟩
  rcases htype : Text.type t₁ with ⟨type, t₂⟩
  rw [hread] at h
  dsimp only at h
  rw [htype] at h
  dsimp only at h
  split at h
  · cases h
  · next hnot =>
    obtain ⟨r, -, he⟩ := Option.map_eq_some_iff.1 h
    cases he
    obtain ⟨rfl, hty, hap⟩ := type_eq htype
    obtain ⟨hne, hisType⟩ := isType_typeOrMixed hty
    refine ⟨ms, type, rfl, hne, hisType, ?_, fun hs => ?_⟩
    · unfold typeOrMixed
      split
      · decide
      · simpa using hnot
    · have hnext := Modifiers.next?_readFrom Modifier.ofProperty {} t
      rw [← Modifiers.read, hread] at hnext
      have hstatic := Modifiers.next?_eq_none_iff.1 hnext .static (by decide) (by simp [Modifiers.admits, hs])
      have hident : Apart Byte.isIdent t₂ := by
        cases t₂ with
        | nil => exact apart_nil _
        | cons b t => exact apart_cons.2 (Byte.isIdent_of_isType_eq_false b (by simpa using hap))
      exact keyword?_typeOrMixed (by decide) (by decide) hident hstatic

theorem head?_eq_property {t rest : Text} {ms : Modifiers} {type : Text}
    (h : head? t = some (.property ms type, rest)) : IsPropertyType ms.isStatic (typeOrMixed type) := by
  unfold head? at h
  rcases Option.or_eq_some_iff.1 h with h | ⟨-, h⟩
  · obtain ⟨ms', type', he, hty⟩ := propertyHead?_eq_some h
    cases he
    exact hty
  · -- The other heads are no heads of properties.
    rcases Option.or_eq_some_iff.1 h with h | ⟨-, h⟩
    · obtain ⟨r, -, he⟩ := Option.map_eq_some_iff.1 h
      cases he
    · rcases Option.or_eq_some_iff.1 h with h | ⟨-, h⟩ <;>
      · obtain ⟨r, -, he⟩ := Option.map_eq_some_iff.1 h
        cases he

/-! ## Reading heads that are spelled -/

/-- Behind modifiers, a word that is no type begins no property. -/
theorem propertyHead?_word {l : List Modifier} {s word w : Text} (hs : Modifiers.Spells l s)
    (hl : ∀ m ∈ l, m ∈ Modifier.ofProperty) (hadmits : Modifiers.admitsAll {} l = true) (hword : IsIdent word)
    (hother : ∀ m ∈ Modifier.ofProperty, (l.foldl Modifiers.add {}).admits m = true → m.keyword ≠ word)
    (hnot : word ∈ notTypes) (hw : IsBlanks w) (t : Text) :
    propertyHead? (s ++ (word ++ (w ++ t))) = none := by
  have htype : Text.type (word ++ (w ++ t)) = (word, w ++ t) :=
    type_append_end (isType_of_within hword.within) (hw.afterType t)
  unfold propertyHead?
  rw [Modifiers.read_spelled_word hs hl hadmits hword hother (hw.apart t)]
  dsimp only
  rw [htype]
  dsimp only
  rw [if_pos (by simpa using hnot)]

/-- Behind modifiers, a different word does not begin what a keyword begins. -/
theorem keyword?_read_word {allowed l : List Modifier} {s word other rest : Text} (hs : Modifiers.Spells l s)
    (hl : ∀ m ∈ l, m ∈ allowed) (hadmits : Modifiers.admitsAll {} l = true) (hword : IsIdent word)
    (hother : ∀ m ∈ allowed, (l.foldl Modifiers.add {}).admits m = true → m.keyword ≠ word)
    (hw : Within Byte.isIdent other) (hne : other ≠ word) (hrest : Apart Byte.isIdent rest) :
    keyword? other (Modifiers.read allowed (s ++ (word ++ rest))).2 = none := by
  rw [Modifiers.read_spelled_word hs hl hadmits hword hother hrest]
  exact keyword?_eq_none_of_ne hw hword.within hrest hne

end Grammar

end PhpClass
