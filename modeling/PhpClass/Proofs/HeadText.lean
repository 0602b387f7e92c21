import PhpClass.Proofs.Parameter

/-!
# Heads of members that are written

What stands at the front of a member when it is written is read as its head: modifiers, each with blanks
behind it, and then the word or the type that tells the kind of the member. The heads are tried in a fixed
order, so each of them also has to be refused by those that are tried before it. They are refused at the
first word that they do not know (`Modifiers.exists_word`).
-/

namespace PhpClass

open Text

theorem Modifier.isIdent_keyword (m : Modifier) : IsIdent m.keyword := by
  cases m with
  | scope s => cases s <;> decide
  | static | abstract | final => decide

theorem Modifier.mem_ofMethod (m : Modifier) : m ∈ Modifier.ofMethod := by
  cases m with
  | scope s => cases s <;> decide
  | static | abstract | final => decide

namespace Modifiers

/-- The first of the words that is not one of the modifiers allowed. -/
theorem exists_word (allowed : List Modifier) {l : List Modifier} {ms : Modifiers} {s word blanks : Text}
    (hs : Spells l s) (hword : IsIdent word) (hother : ∀ m ∈ allowed, m.keyword ≠ word)
    (hadmits : ms.admitsAll l = true) (hblanks : IsBlanks blanks) (t : Text) :
    ∃ l₁ s₁ w b rest, s ++ (word ++ (blanks ++ t)) = s₁ ++ (w ++ (b ++ rest)) ∧ Spells l₁ s₁ ∧ IsBlanks b ∧
      (∀ m ∈ l₁, m ∈ allowed) ∧ ms.admitsAll l₁ = true ∧ IsIdent w ∧ (∀ m ∈ allowed, m.keyword ≠ w) ∧
      (w = word ∨ ∃ m ∈ l, m ∉ allowed ∧ w = m.keyword) := by
  induction hs generalizing ms with
  | nil => exact ⟨[], [], word, blanks, t, rfl, .nil, hblanks, by simp, rfl, hword, hother, .inl rfl⟩
  | @cons m l w₀ s hw₀ hs ih =>
    rw [admitsAll, Bool.and_eq_true] at hadmits
    by_cases hm : m ∈ allowed
    · obtain ⟨l₁, s₁, w, b, rest, ht, hs₁, hb, hl, hadmits₁, hw, hne, hkind⟩ := ih hadmits.2
      refine ⟨m :: l₁, _, w, b, rest, ?_, .cons hw₀ hs₁, hb, ?_, ?_, hw, hne, ?_⟩
      · rw [List.append_assoc, List.append_assoc, ht]
        simp only [List.append_assoc]
      · intro n hn
        rcases List.mem_cons.1 hn with rfl | hn
        · exact hm
        · exact hl n hn
      · rw [admitsAll, hadmits.1, hadmits₁]
        rfl
      · rcases hkind with rfl | ⟨n, hn, hnot, rfl⟩
        · exact .inl rfl
        · exact .inr ⟨n, List.mem_cons_of_mem _ hn, hnot, rfl⟩
    · refine ⟨[], [], m.keyword, w₀, s ++ (word ++ (blanks ++ t)), ?_, .nil, hw₀, by simp, rfl, ?_, ?_, ?_⟩
      · simp only [List.append_assoc, List.nil_append]
      · exact m.isIdent_keyword
      · intro n hn he
        exact hm (Modifier.keyword_injective he ▸ hn)
      · exact .inr ⟨m, List.mem_cons_self, hm, rfl⟩

end Modifiers

namespace Grammar

open Modifiers

/-! ## Constants and uses of traits -/

theorem head?_constant (s : Scope) (t : Text) :
    head? (written [.scope s] ++ (utf8 "const" ++ Byte.space :: t)) =
      some (.constant { scope := some s }, Byte.space :: t) := by
  have hword : IsIdent (utf8 "const") := by decide
  have hscope : ∀ m ∈ [Modifier.scope s], m ∈ Modifier.ofProperty ∧ m ∈ Modifier.ofConstant := by
    cases s <;> decide
  have hproperty : propertyHead? (written [.scope s] ++ (utf8 "const" ++ Byte.space :: t)) = none :=
    propertyHead?_word (spells_written _) (fun m hm => (hscope m hm).1) rfl hword (by cases s <;> decide)
      (by decide) isBlanks_space t
  have hread := read_spelled_word (spells_written _) (fun m hm => (hscope m hm).2) rfl hword
    (by cases s <;> decide) (show Apart Byte.isIdent (Byte.space :: t) from apart_cons.2 (by decide))
  unfold head? constantHead?
  rw [hproperty, hread, Option.none_or]
  dsimp only
  rw [keyword?_space]
  rfl

theorem head?_traitUse (t : Text) :
    head? (utf8 "use" ++ Byte.space :: t) = some (.traitUse, Byte.space :: t) := by
  have hword : IsIdent (utf8 "use") := by decide
  have hspace : Apart Byte.isIdent (Byte.space :: t) := apart_cons.2 (by decide)
  have hproperty : propertyHead? (utf8 "use" ++ Byte.space :: t) = none :=
    propertyHead?_word .nil (by simp) rfl hword (by decide) (by decide) isBlanks_space t
  have hconstant : keyword? (utf8 "const")
      (Modifiers.read Modifier.ofConstant (utf8 "use" ++ Byte.space :: t)).2 = none :=
    keyword?_read_word .nil (by simp) rfl hword (by decide) (by decide) (by decide) hspace
  have hmethod : keyword? (utf8 "function")
      (Modifiers.read Modifier.ofMethod (utf8 "use" ++ Byte.space :: t)).2 = none :=
    keyword?_read_word .nil (by simp) rfl hword (by decide) (by decide) (by decide) hspace
  unfold head? constantHead? methodHead? traitHead?
  rw [hproperty]
  dsimp only
  rw [hconstant, hmethod, keyword?_space]
  rfl

/-! ## Properties -/

/-- The modifiers of a property in the order in which they are written. -/
def propertyModifiers (s : Scope) (isStatic : Bool) : List Modifier :=
  .scope s :: if isStatic then [.static] else []

/-- A type that can be written behind the modifiers of a property begins with no further modifier. -/
theorem next?_type {s : Scope} {isStatic : Bool} {type : Text} (h : IsPropertyType isStatic type) (t : Text) :
    next? Modifier.ofProperty { scope := some s, isStatic } (type ++ Byte.space :: t) = none := by
  refine next?_eq_none_iff.2 fun m hm hadmits => ?_
  cases m with
  | scope => cases hadmits
  | static =>
    have hstatic : isStatic = false := by simpa [admits] using hadmits
    exact keyword?_eq_none_append Modifier.static.within_keyword (h.notStatic hstatic) (apart_cons.2 (by decide))
  | abstract | final =>
    cases hm
    contradiction

theorem head?_property {s : Scope} {isStatic : Bool} {type : Text} (h : IsPropertyType isStatic type)
    (t : Text) : head? (written (propertyModifiers s isStatic) ++ (type ++ Byte.space :: (utf8 "$" ++ t))) =
      some (.property { scope := some s, isStatic } type, t) := by
  have hfold : (propertyModifiers s isStatic).foldl add {} = { scope := some s, isStatic } := by
    cases isStatic <;> rfl
  have hread : Modifiers.read Modifier.ofProperty
      (written (propertyModifiers s isStatic) ++ (type ++ Byte.space :: (utf8 "$" ++ t))) =
        ({ scope := some s, isStatic }, type ++ Byte.space :: (utf8 "$" ++ t)) := by
    have hmem : ∀ m ∈ propertyModifiers s isStatic, m ∈ Modifier.ofProperty := by
      cases s <;> cases isStatic <;> decide
    have hadmits : admitsAll {} (propertyModifiers s isStatic) = true := by cases isStatic <;> rfl
    have hread := readFrom_spelled (spells_written _) hmem hadmits
      (apart_blank_of_isType h.isType h.ne_nil (Byte.space :: (utf8 "$" ++ t)))
    rw [hfold] at hread
    exact hread (next?_type h _)
  have htype : Text.type (type ++ Byte.space :: (utf8 "$" ++ t)) = (type, Byte.space :: (utf8 "$" ++ t)) :=
    type_append h.isType (by decide) (by decide)
  have hskip : skipBlanks (Byte.space :: (utf8 "$" ++ t)) = utf8 "$" ++ t :=
    skipBlanks_append (b := [Byte.space]) (by decide) (apart_cons.2 (by decide))
  unfold head? propertyHead?
  rw [hread]
  dsimp only
  rw [htype]
  dsimp only
  rw [if_neg (by simpa using h.notWord), hskip, after?_append]
  rfl

/-! ## Methods -/

theorem head?_method {l : List Modifier} {s w : Text} (hs : Spells l s) (hadmits : admitsAll {} l = true)
    (hw : IsBlanks w) (t : Text) :
    head? (s ++ (utf8 "function" ++ (w ++ t))) = some (.method (l.foldl add {}), w ++ t) := by
  have hword : IsIdent (utf8 "function") := by decide
  have hproperty : propertyHead? (s ++ (utf8 "function" ++ (w ++ t))) = none := by
    obtain ⟨l₁, s₁, word, b, rest, ht, hs₁, hb, hl₁, hadmits₁, hident, hne, hkind⟩ :=
      exists_word Modifier.ofProperty hs hword (by decide) hadmits hw t
    rw [ht]
    refine propertyHead?_word hs₁ hl₁ hadmits₁ hident (fun m hm _ => hne m hm) ?_ hb rest
    rcases hkind with rfl | ⟨m, hm, hnot, rfl⟩
    · decide
    · -- Behind the modifiers of properties only the two words are left that no property has.
      revert hnot
      cases m with
      | scope s => cases s <;> decide
      | static | abstract | final => decide
  have hconstant : keyword? (utf8 "const")
      (Modifiers.read Modifier.ofConstant (s ++ (utf8 "function" ++ (w ++ t)))).2 = none := by
    obtain ⟨l₁, s₁, word, b, rest, ht, hs₁, hb, hl₁, hadmits₁, hident, hne, hkind⟩ :=
      exists_word Modifier.ofConstant hs hword (by decide) hadmits hw t
    rw [ht]
    refine keyword?_read_word hs₁ hl₁ hadmits₁ hident (fun m hm _ => hne m hm) (by decide) ?_ (hb.apart rest)
    rcases hkind with rfl | ⟨m, hm, hnot, rfl⟩
    · decide
    · cases m with
      | scope s => cases s <;> decide
      | static | abstract | final => decide
  have hread := read_spelled_word hs (fun m _ => m.mem_ofMethod) hadmits hword (fun m hm _ => by
    cases m with
    | scope s => cases s <;> decide
    | static | abstract | final => decide) (hw.apart t)
  unfold head? constantHead? methodHead?
  rw [hproperty, hread]
  dsimp only
  rw [hconstant, keyword?_eq_some.2 ⟨rfl, hw.apart t⟩]
  rfl

end Grammar

end PhpClass
