import PhpClass.Member.Content
import PhpClass.Proofs.OrderedMap
import PhpClass.Scan.Fault

/-!
# Contents as lists of members

Adding members one after the other groups them by kind (`ClassContent.addAll_eq_ok`): the four sections of
a content hold the members of their kind in the order in which they were added (`ClassContent.Holds`).
-/

namespace PhpClass

namespace Member

def constant? : Member → Option (Element Constant)
  | constant e => some e
  | _ => none

def property? : Member → Option (Element TypedVar)
  | property e => some e
  | _ => none

def method? : Member → Option (Element Method)
  | method e => some e
  | _ => none

def traitUse? : Member → Option (Element Text)
  | traitUse e => some e
  | _ => none

end Member

namespace ClassContent

/-- The sections hold exactly these members, grouped by kind in their order, each under its name. -/
structure Holds (c : ClassContent) (ms : List Member) : Prop where
  constants : c.constants.entries =
    (ms.filterMap Member.constant?).map fun e => (e.payload.name, e)
  properties : c.properties.entries =
    (ms.filterMap Member.property?).map fun e => (e.payload.name, e)
  methods : c.methods.entries =
    (ms.filterMap Member.method?).map fun e => (e.payload.name, e)
  traits : c.traits.entries =
    (ms.filterMap Member.traitUse?).map fun e => (e.payload, e)

theorem holds_empty : ({} : ClassContent).Holds [] := ⟨rfl, rfl, rfl, rfl⟩

theorem ext_entries {c d : ClassContent} (h₁ : c.constants.entries = d.constants.entries)
    (h₂ : c.properties.entries = d.properties.entries) (h₃ : c.methods.entries = d.methods.entries)
    (h₄ : c.traits.entries = d.traits.entries) (h₅ : c.closingComment = d.closingComment) : c = d := by
  cases c
  cases d
  simp only [ClassContent.mk.injEq]
  exact ⟨OrderedMap.ext h₁, OrderedMap.ext h₂, OrderedMap.ext h₃, OrderedMap.ext h₄, h₅⟩

/-- The members and the closing comment determine a content. -/
theorem Holds.unique {c d : ClassContent} {ms : List Member} (hc : c.Holds ms) (hd : d.Holds ms)
    (h : c.closingComment = d.closingComment) : c = d :=
  ext_entries (hc.constants.trans hd.constants.symm) (hc.properties.trans hd.properties.symm)
    (hc.methods.trans hd.methods.symm) (hc.traits.trans hd.traits.symm) h

theorem holds_closing {c : ClassContent} {ms : List Member} {closing : Option Text} :
    ({ c with closingComment := closing } : ClassContent).Holds ms ↔ c.Holds ms :=
  ⟨fun h => ⟨h.constants, h.properties, h.methods, h.traits⟩,
    fun h => ⟨h.constants, h.properties, h.methods, h.traits⟩⟩

variable {c d : ClassContent} {old : List Member} {m : Member}

theorem holds_append_singleton (h : c.Holds old) : d.Holds (old ++ [m]) ↔
    d.constants.entries = c.constants.entries ++ (m.constant?.map fun e => (e.payload.name, e)).toList ∧
    d.properties.entries = c.properties.entries ++ (m.property?.map fun e => (e.payload.name, e)).toList ∧
    d.methods.entries = c.methods.entries ++ (m.method?.map fun e => (e.payload.name, e)).toList ∧
    d.traits.entries = c.traits.entries ++ (m.traitUse?.map fun e => (e.payload, e)).toList := by
  obtain ⟨h₁, h₂, h₃, h₄⟩ := h
  have hone : ∀ {α β : Type} (f : Member → Option α) (g : α → β),
      ([m].filterMap f).map g = ((f m).map g).toList := by
    intro α β f g
    cases hf : f m <;> simp [hf]
  rw [h₁, h₂, h₃, h₄]
  constructor
  · rintro ⟨k₁, k₂, k₃, k₄⟩
    simp only [List.filterMap_append, List.map_append, hone] at k₁ k₂ k₃ k₄
    exact ⟨k₁, k₂, k₃, k₄⟩
  · rintro ⟨k₁, k₂, k₃, k₄⟩
    refine ⟨?_, ?_, ?_, ?_⟩ <;> simp only [List.filterMap_append, List.map_append, hone]
    · exact k₁
    · exact k₂
    · exact k₃
    · exact k₄

/-- Adding to one section. -/
theorem add_section_eq_ok {V : Type} {s : OrderedMap V} {key : Text} {value : V}
    {taken : DuplicateKey → Duplicate} {put : OrderedMap V → ClassContent} :
    (do return put (← (s.insert key value).mapError taken)) = (.ok d : Except Duplicate ClassContent) ↔
      ∃ n, n.entries = s.entries ++ [(key, value)] ∧ put n = d := by
  rw [bind_eq_ok]
  simp only [mapError_eq_ok, OrderedMap.insert_eq_ok]
  constructor
  · rintro ⟨n, hn, he⟩
    exact ⟨n, hn, Except.ok.inj he⟩
  · rintro ⟨n, hn, rfl⟩
    exact ⟨n, hn, rfl⟩

/-- What a content becomes that a member is added to, if its name is not taken. -/
theorem add_eq_ok (h : c.Holds old) : c.add m = .ok d ↔
    d.Holds (old ++ [m]) ∧ d.closingComment = c.closingComment := by
  rw [holds_append_singleton h]
  unfold add
  cases m with
  | constant e =>
    refine add_section_eq_ok.trans ⟨?_, ?_⟩
    · rintro ⟨n, hn, rfl⟩
      exact ⟨⟨hn, by simp [Member.property?], by simp [Member.method?], by simp [Member.traitUse?]⟩, rfl⟩
    · rintro ⟨⟨k₁, k₂, k₃, k₄⟩, hc⟩
      exact ⟨d.constants, k₁, ext_entries rfl (by simpa [Member.property?] using k₂.symm)
        (by simpa [Member.method?] using k₃.symm) (by simpa [Member.traitUse?] using k₄.symm) hc.symm⟩
  | property e =>
    refine add_section_eq_ok.trans ⟨?_, ?_⟩
    · rintro ⟨n, hn, rfl⟩
      exact ⟨⟨by simp [Member.constant?], hn, by simp [Member.method?], by simp [Member.traitUse?]⟩, rfl⟩
    · rintro ⟨⟨k₁, k₂, k₃, k₄⟩, hc⟩
      exact ⟨d.properties, k₂, ext_entries (by simpa [Member.constant?] using k₁.symm) rfl
        (by simpa [Member.method?] using k₃.symm) (by simpa [Member.traitUse?] using k₄.symm) hc.symm⟩
  | method e =>
    refine add_section_eq_ok.trans ⟨?_, ?_⟩
    · rintro ⟨n, hn, rfl⟩
      exact ⟨⟨by simp [Member.constant?], by simp [Member.property?], hn, by simp [Member.traitUse?]⟩, rfl⟩
    · rintro ⟨⟨k₁, k₂, k₃, k₄⟩, hc⟩
      exact ⟨d.methods, k₃, ext_entries (by simpa [Member.constant?] using k₁.symm)
        (by simpa [Member.property?] using k₂.symm) rfl (by simpa [Member.traitUse?] using k₄.symm) hc.symm⟩
  | traitUse e =>
    refine add_section_eq_ok.trans ⟨?_, ?_⟩
    · rintro ⟨n, hn, rfl⟩
      exact ⟨⟨by simp [Member.constant?], by simp [Member.property?], by simp [Member.method?], hn⟩, rfl⟩
    · rintro ⟨⟨k₁, k₂, k₃, k₄⟩, hc⟩
      exact ⟨d.traits, k₄, ext_entries (by simpa [Member.constant?] using k₁.symm)
        (by simpa [Member.property?] using k₂.symm) (by simpa [Member.method?] using k₃.symm) rfl hc.symm⟩

/-- The first of the members that a content holds further could be added. -/
theorem exists_add {ms : List Member} (h : c.Holds old) (hd : d.Holds (old ++ m :: ms)) :
    ∃ c', c.add m = .ok c' := by
  obtain ⟨h₁, h₂, h₃, h₄⟩ := h
  obtain ⟨k₁, k₂, k₃, k₄⟩ := hd
  rw [List.filterMap_append, List.map_append] at k₁ k₂ k₃ k₄
  rw [← h₁] at k₁
  rw [← h₂] at k₂
  rw [← h₃] at k₃
  rw [← h₄] at k₄
  unfold add
  cases m with
  | constant e =>
    obtain ⟨q, hq⟩ := OrderedMap.exists_take k₁
    exact ⟨_, add_section_eq_ok.2 ⟨q, hq, rfl⟩⟩
  | property e =>
    obtain ⟨q, hq⟩ := OrderedMap.exists_take k₂
    exact ⟨_, add_section_eq_ok.2 ⟨q, hq, rfl⟩⟩
  | method e =>
    obtain ⟨q, hq⟩ := OrderedMap.exists_take k₃
    exact ⟨_, add_section_eq_ok.2 ⟨q, hq, rfl⟩⟩
  | traitUse e =>
    obtain ⟨q, hq⟩ := OrderedMap.exists_take k₄
    exact ⟨_, add_section_eq_ok.2 ⟨q, hq, rfl⟩⟩

/-- Members that are added one after the other are grouped by kind. -/
theorem addAll_eq_ok {ms : List Member} (h : c.Holds old) : c.addAll ms = .ok d ↔
    d.Holds (old ++ ms) ∧ d.closingComment = c.closingComment := by
  induction ms generalizing c old with
  | nil =>
    rw [addAll, List.append_nil, Except.ok.injEq]
    constructor
    · rintro rfl
      exact ⟨h, rfl⟩
    · rintro ⟨hd, hc⟩
      exact h.unique hd hc.symm
  | cons m ms ih =>
    rw [addAll, bind_eq_ok]
    constructor
    · rintro ⟨c', hadd, hd⟩
      obtain ⟨hc', hclosing⟩ := (add_eq_ok h).1 hadd
      obtain ⟨hd, hd'⟩ := (ih hc').1 hd
      exact ⟨by simpa using hd, hd'.trans hclosing⟩
    · rintro ⟨hd, hclosing⟩
      obtain ⟨c', hadd⟩ := exists_add h hd
      obtain ⟨hc', hclosing'⟩ := (add_eq_ok h).1 hadd
      exact ⟨c', hadd, (ih hc').2 ⟨by simpa using hd, hclosing.trans hclosing'.symm⟩⟩

end ClassContent

end PhpClass
