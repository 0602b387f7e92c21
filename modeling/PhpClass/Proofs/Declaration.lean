import PhpClass.Proofs.Local

/-!
# Declarations

A stretch of code declares a member if it is read as this member wherever it stands: whatever comment
stands in front of it and whatever follows it (`Declares`). Each member that is read is read from such a
stretch (`Grammar.member_eq_ok`). Of what surrounds the stretch only the comment in front of it and the
line comment behind it belong to the member (`Member.attach`).

What is declared can be written (`Member.Writable`).
-/

namespace PhpClass

open Text

/-- A property that can be written. -/
structure TypedVar.IsProperty (v : TypedVar) : Prop where
  name : ∃ word, IsIdent word ∧ v.name = utf8 "$" ++ word
  hasScope : v.scope.isSome = true
  type : Grammar.IsPropertyType v.isStatic v.type
  default : ∀ d ∈ v.defaultValue, Scan.IsStatement true d

namespace Member

/-- A member that can be written. -/
def Writable : Member → Prop
  | constant e => IsIdent e.payload.name ∧ Scan.IsStatement true e.payload.value
  | property e => e.payload.IsProperty
  | method e => e.payload.Writable
  | traitUse e => Scan.IsStatement false e.payload ∧ Byte.openBrace ∉ e.payload

def trailingComment : Member → Option Text
  | constant e => e.trailingComment
  | property e => e.trailingComment
  | method e => e.trailingComment
  | traitUse e => e.trailingComment

/-- The same member with other comments. -/
def withComments (m : Member) (before behind : Option Text) : Member :=
  match m with
  | constant e => constant ⟨e.payload, before, behind⟩
  | property e => property ⟨e.payload, before, behind⟩
  | method e => method ⟨e.payload, before, behind⟩
  | traitUse e => traitUse ⟨e.payload, before, behind⟩

/-- A declaration between a comment in front of it and one behind it. A comment in the declaration itself
comes first. -/
def attach (m : Member) (before behind : Option Text) : Member :=
  m.withComments before (Grammar.sideBySide m.trailingComment behind)

@[simp] theorem commentBefore_attach (m : Member) (before behind : Option Text) :
    (m.attach before behind).commentBefore = before := by cases m <;> rfl

theorem trailingComment_attach (m : Member) (before behind : Option Text) :
    (m.attach before behind).trailingComment = Grammar.sideBySide m.trailingComment behind := by
  cases m <;> rfl

/-- The comments of the member are such as are read, and the parameters stand under their names. -/
structure Normal (m : Member) : Prop where
  before : ∀ t ∈ m.commentBefore, isSpace t = false
  behind : ∀ t ∈ m.trailingComment, Comment.IsShown t
  parameters : ∀ e, m = method e →
    e.payload.parameters.keys = e.payload.parameters.values.map TypedVar.name

theorem isShown_sideBySide {a b : Option Text} (ha : ∀ t ∈ a, Comment.IsShown t)
    (hb : ∀ t ∈ b, Comment.IsShown t) : ∀ t ∈ Grammar.sideBySide a b, Comment.IsShown t := by
  intro t ht
  cases a with
  | none => exact hb t (by simpa [Grammar.sideBySide] using ht)
  | some x =>
    cases b with
    | none => exact ha t (by simpa [Grammar.sideBySide] using ht)
    | some y =>
      cases ht
      exact (ha x rfl).append (hb y rfl)

theorem Normal.attach {m : Member} (h : m.Normal) {before behind : Option Text}
    (hbefore : ∀ t ∈ before, isSpace t = false) (hbehind : ∀ t ∈ behind, Comment.IsShown t) :
    (m.attach before behind).Normal where
  before := by rwa [commentBefore_attach]
  behind := by
    rw [trailingComment_attach]
    exact isShown_sideBySide h.behind hbehind
  parameters := by
    intro e he
    cases m with
    | method f =>
      cases he
      exact h.parameters f rfl
    | constant | property | traitUse => cases he

theorem attach_none {m : Member} (h : m.commentBefore = none) : m.attach none none = m := by
  obtain ⟨p, _, trailing⟩ | ⟨p, _, trailing⟩ | ⟨p, _, trailing⟩ | ⟨p, _, trailing⟩ := m <;>
    cases h <;> cases trailing <;> rfl

theorem writable_attach {m : Member} {before behind : Option Text} :
    (m.attach before behind).Writable ↔ m.Writable := by cases m <;> rfl

end Member

/-- The text is read as the member wherever it stands. -/
structure Declares (s : Text) (m : Member) : Prop where
  commentBefore : m.commentBefore = none
  gapEnd : ∀ more, Scan.GapEnd (s ++ more)
  member : ∀ before more, Grammar.member before (s ++ more) =
    .ok (m.attach before (Scan.trailing more).1, (Scan.trailing more).2)

/-- Something is left behind a gap in front of a declaration. -/
theorem Declares.append_ne_nil {s : Text} {m : Member} (h : Declares s m) (more : Text) : s ++ more ≠ [] := by
  intro hnil
  have hgap := h.gapEnd [Byte.space]
  rw [(List.append_eq_nil_iff.1 hnil).1] at hgap
  have hblank := hgap.1
  simp only [List.nil_append, apart_cons] at hblank
  exact absurd hblank (by decide)

namespace Grammar

/-- A head and a declaration behind it that ends in a byte that no head holds. -/
theorem declares_of_head {t s rest : Text} {head : Head} {c : UInt8} {m : Member}
    (hgap : Scan.GapEnd t) (hc : Byte.isEnd c = true) (hh : head? t = some (head, s ++ c :: rest))
    (hm : m.commentBefore = none)
    (hd : ∀ before more, declaration before head (s ++ c :: more) =
      .ok (m.attach before (Scan.trailing more).1, (Scan.trailing more).2)) :
    ∃ p, t = p ++ rest ∧ Declares p m := by
  obtain ⟨p, rfl, hmore⟩ := head?_stop (Byte.isEnd_spec c hc).1 hh
  have ht : ∀ more, p ++ (s ++ [c]) ++ more = p ++ (s ++ c :: more) := fun more => by simp
  refine ⟨p ++ (s ++ [c]), by simp, hm, fun more => ?_, fun before more => ?_⟩
  · rw [ht]
    exact (((agree_end hc rest more).append s).append p).gapEnd hgap
  · unfold member
    rw [ht, hmore]
    exact hd before more

/-- A member is read from a stretch that declares it, with the comments around this stretch. -/
theorem member_eq_ok {before : Option Text} {t rest : Text} {m : Member} (hgap : Scan.GapEnd t)
    (h : member before t = .ok (m, rest)) :
    ∃ s alone more, t = s ++ more ∧ Declares s alone ∧ alone.Writable ∧ alone.Normal ∧
      m = alone.attach before (Scan.trailing more).1 ∧ rest = (Scan.trailing more).2 := by
  unfold member at h
  split at h
  · next head r hh =>
    unfold declaration at h
    split at h
    · next ms type =>
      obtain ⟨⟨v, r'⟩, hv, h⟩ := bind_eq_ok.1 h
      cases h
      obtain ⟨⟨word, hword, hv'⟩, hdef, s, rfl, hmore⟩ := property_local hv
      have htype := head?_eq_property hh
      obtain ⟨p, rfl, hp⟩ := declares_of_head (m := .property ⟨v, none, none⟩) hgap (by decide) hh rfl
        fun before more => bind_eq_ok.2 ⟨(v, more), hmore more, rfl⟩
      refine ⟨p, _, r', rfl, hp, ?_, ⟨nofun, nofun, nofun⟩, rfl, rfl⟩
      rw [hv']
      exact ⟨⟨word, hword, rfl⟩, rfl, htype, hdef⟩
    · next ms =>
      obtain ⟨⟨c, r'⟩, hv, h⟩ := bind_eq_ok.1 h
      cases h
      obtain ⟨hname, hvalue, -, s, rfl, hmore⟩ := constant_local hv
      obtain ⟨p, rfl, hp⟩ := declares_of_head (m := .constant ⟨c, none, none⟩) hgap (by decide) hh rfl
        fun before more => bind_eq_ok.2 ⟨(c, more), hmore more, rfl⟩
      exact ⟨p, _, r', rfl, hp, ⟨hname, hvalue⟩, ⟨nofun, nofun, nofun⟩, rfl, rfl⟩
    · next ms =>
      obtain ⟨⟨⟨v, c⟩, r'⟩, hv, h⟩ := bind_eq_ok.1 h
      cases h
      obtain ⟨hwritable, hkeys, hshown, s, e, he, rfl, hmore⟩ := method_local hv
      obtain ⟨p, rfl, hp⟩ := declares_of_head (m := .method ⟨v, none, c⟩) hgap he hh rfl
        fun before more => bind_eq_ok.2 ⟨((v, c), more), hmore more, rfl⟩
      refine ⟨p, _, r', rfl, hp, hwritable, ⟨nofun, hshown, fun e he => ?_⟩, rfl, rfl⟩
      cases he
      exact hkeys
    · obtain ⟨⟨name, r'⟩, hv, h⟩ := bind_eq_ok.1 h
      cases h
      obtain ⟨hname, hbrace, s, rfl, hmore⟩ := traitUse_local hv
      obtain ⟨p, rfl, hp⟩ := declares_of_head (m := .traitUse ⟨name, none, none⟩) hgap (by decide) hh rfl
        fun before more => bind_eq_ok.2 ⟨(name, more), hmore more, rfl⟩
      exact ⟨p, _, r', rfl, hp, ⟨hname, hbrace⟩, ⟨nofun, nofun, nofun⟩, rfl, rfl⟩
  · cases h

end Grammar

end PhpClass
