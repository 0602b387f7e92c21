import PhpClass.Member.Content
import PhpClass.Proofs.Content
import PhpClass.Proofs.MapSession

/-!
# Sessions on class contents

A content is edited by adding and removing members and by changing them in place (`ClassContent.edit`), and so are
the parameters of a method (`Method.edit`). Each of these operations is one on the section of its kind, and none on
the others, so every section goes through a session of its own (`ClassContent.drives_members`).

Keys and names may drift apart: who renames a member in place still finds it under the key with which it was added.
The main statement is `ClassContent.session_laws`.
-/

namespace PhpClass

/-! ## Operations -/

/-- An operation on a method. What is changed in place leaves the parameters to the operations on them. -/
inductive MethodEdit where
  | addParameter (v : TypedVar)
  | removeParameter (key : Text)
  | modifyParameter (key : Text) (f : TypedVar → TypedVar)
  | modify (f : Method → Method)

/-- The operations on a method, with their answers. -/
def Method.edit (m : Method) : MethodEdit → Answer Duplicate TypedVar × Method
  | .addParameter v =>
    match m.addParameter v with
    | .ok n => (.inserted, n)
    | .error d => (.duplicate d, m)
  | .removeParameter key => (.found (m.parameter? key), m.removeParameter key)
  | .modifyParameter key f => (.found (m.parameter? key), m.modifyParameter key f)
  | .modify f => (.done, { f m with parameters := m.parameters })

/-- An operation on a content. A use of traits cannot be changed in place. -/
inductive ContentEdit where
  | add (m : Member)
  | remove (kind : MemberKind) (key : Text)
  | modifyConstant (key : Text) (f : Element Constant → Element Constant)
  | modifyProperty (key : Text) (f : Element TypedVar → Element TypedVar)
  | modifyMethod (key : Text) (f : Element Method → Element Method)
  | inMethod (key : Text) (e : MethodEdit)

/-- What is answered to an operation on a content: what became of the member, and if it is a method that is edited,
the answer of the method. -/
structure ContentAnswer where
  member : Answer Duplicate Member
  parameter : Option (Answer Duplicate TypedVar) := none

namespace ClassContent

/-- The operations on a content, with their answers. -/
def edit (c : ClassContent) : ContentEdit → ContentAnswer × ClassContent
  | .add m =>
    match c.add m with
    | .ok d => ({ member := .inserted }, d)
    | .error d => ({ member := .duplicate d }, c)
  | .remove kind key => ({ member := .found (c.member? kind key) }, c.remove kind key)
  | .modifyConstant key f => ({ member := .found (c.member? .constant key) }, c.modifyConstant key f)
  | .modifyProperty key f => ({ member := .found (c.member? .property key) }, c.modifyProperty key f)
  | .modifyMethod key f => ({ member := .found (c.member? .method key) }, c.modifyMethod key f)
  | .inMethod key e =>
    ({ member := .found (c.member? .method key)
       parameter := (c.methods.get? key).map fun m => (m.payload.edit e).1 },
      c.modifyMethod key (Element.map fun m => (m.edit e).2))

end ClassContent

/-! ## Sections -/

/-- The members of a kind, under their keys. -/
def ClassContent.membersOf (c : ClassContent) : MemberKind → OrderedMap Member
  | .constant => c.constants.map .constant
  | .property => c.properties.map .property
  | .method => c.methods.map .method
  | .traitUse => c.traits.map .traitUse

namespace MapEdit

/-- An operation that changes nothing. -/
def nothing {V : Type} : MapEdit V := .modifyAll fun _ v => v

end MapEdit

namespace Member

def mapConstant (f : Element Constant → Element Constant) : Member → Member
  | constant e => constant (f e)
  | m => m

def mapProperty (f : Element TypedVar → Element TypedVar) : Member → Member
  | property e => property (f e)
  | m => m

def mapMethod (f : Element Method → Element Method) : Member → Member
  | method e => method (f e)
  | m => m

end Member

namespace ContentEdit

/-- The kind of the members in whose section the operation takes place. -/
def kind : ContentEdit → MemberKind
  | add m => m.kind
  | remove kind _ => kind
  | modifyConstant _ _ => .constant
  | modifyProperty _ _ => .property
  | modifyMethod _ _ => .method
  | inMethod _ _ => .method

/-- The key of the entry that the operation is about. -/
def key : ContentEdit → Text
  | add m => m.name
  | remove _ key => key
  | modifyConstant key _ => key
  | modifyProperty key _ => key
  | modifyMethod key _ => key
  | inMethod key _ => key

/-- The operation as one on the section of its kind. -/
def onMembers : ContentEdit → MapEdit Member
  | add m => .insert m.name m
  | remove _ key => .erase key
  | modifyConstant key f => .modify key (Member.mapConstant f)
  | modifyProperty key f => .modify key (Member.mapProperty f)
  | modifyMethod key f => .modify key (Member.mapMethod f)
  | inMethod key e => .modify key (Member.mapMethod (Element.map fun m => (m.edit e).2))

/-- What an operation in place does to the member. -/
def inPlace? : ContentEdit → Option (Member → Member)
  | add _ => none
  | remove _ _ => none
  | modifyConstant _ f => some (Member.mapConstant f)
  | modifyProperty _ f => some (Member.mapProperty f)
  | modifyMethod _ f => some (Member.mapMethod f)
  | inMethod _ e => some (Member.mapMethod (Element.map fun m => (m.edit e).2))

/-- The operation on the method under a key. -/
def inMethod? (key : Text) : ContentEdit → Option MethodEdit
  | inMethod k e => if k = key then some e else none
  | _ => none

/-- Whether the method under a key may become another one: it is removed, or changed other than by the operations on
methods. -/
def Replaces (e : ContentEdit) (key : Text) : Prop :=
  e = remove .method key ∨ ∃ f, e = modifyMethod key f

/-- The operation as one on a section. -/
def inSection (e : ContentEdit) (kind : MemberKind) : MapEdit Member :=
  if e.kind = kind then e.onMembers else .nothing

end ContentEdit

namespace OrderedMap

variable {V W : Type}

@[simp] theorem keys_map (f : V → W) (m : OrderedMap V) : (m.map f).keys = m.keys := by
  simp [keys, map]

@[simp] theorem size_map (f : V → W) (m : OrderedMap V) : (m.map f).size = m.size := by
  simp [size, map]

theorem get?_map (f : V → W) (m : OrderedMap V) (key : Text) : (m.map f).get? key = (m.get? key).map f := by
  have hslot : (m.map f).slot? key = m.slot? key := rfl
  unfold get?
  rw [hslot]
  cases m.slot? key with
  | none => rfl
  | some slot => simp only [Option.bind_some, map, List.getElem?_map, Option.map_map]; rfl

theorem edit_nothing (m : OrderedMap V) : m.edit .nothing = (.done, m) := by
  have hmap : m.mapSlots (fun _ v => v) = m :=
    ext (List.ext_getElem (by simp [mapSlots]) (by simp [mapSlots]))
  simp only [MapEdit.nothing, edit, hmap]

theorem erase_map (f : V → W) (m : OrderedMap V) (key : Text) :
    (m.map f).erase key = (m.erase key).map f := by
  refine ext ?_
  rw [entries_erase]
  simp only [map, entries_erase, List.filter_map]
  rfl

theorem modify_map {f : V → W} {g : V → V} {h : W → W} (hfg : ∀ v, h (f v) = f (g v)) (m : OrderedMap V)
    (key : Text) : (m.map f).modify key h = (m.modify key g).map f := by
  refine ext ?_
  rw [entries_modify]
  simp only [map, entries_modify, List.map_map]
  refine List.map_congr_left fun e _ => ?_
  by_cases he : e.1 = key <;> simp [he, hfg]

end OrderedMap

/-! ## Methods -/

/-- The operation as one on the parameters. -/
def MethodEdit.onParameters : MethodEdit → MapEdit TypedVar
  | addParameter v => .insert v.name v
  | removeParameter key => .erase key
  | modifyParameter key f => .modify key f
  | modify _ => .nothing

namespace Method

theorem addParameter_of_mem {m : Method} {v : TypedVar} (h : v.name ∈ m.parameters.keys) :
    m.addParameter v = .error (.parameter m.name v.name) := by
  unfold addParameter
  rw [OrderedMap.insert_eq_error.2 ⟨h, rfl⟩]
  rfl

theorem addParameter_of_not_mem {m : Method} {v : TypedVar} (h : v.name ∉ m.parameters.keys) :
    ∃ ps, m.addParameter v = .ok { m with parameters := ps } ∧
      ps.entries = m.parameters.entries ++ [(v.name, v)] := by
  obtain ⟨n, hn, he⟩ := OrderedMap.entries_insert h v
  refine ⟨n, ?_, he⟩
  unfold addParameter
  rw [hn]
  rfl

theorem edit_addParameter_of_mem {m : Method} {v : TypedVar} (h : v.name ∈ m.parameters.keys) :
    m.edit (.addParameter v) = (.duplicate (.parameter m.name v.name), m) := by
  simp only [edit, addParameter_of_mem h]

theorem edit_addParameter_of_not_mem {m : Method} {v : TypedVar} (h : v.name ∉ m.parameters.keys) :
    ∃ ps, m.edit (.addParameter v) = (.inserted, { m with parameters := ps }) ∧
      ps.entries = m.parameters.entries ++ [(v.name, v)] := by
  obtain ⟨ps, hadd, he⟩ := addParameter_of_not_mem h
  exact ⟨ps, by simp only [edit, hadd], he⟩

/-- An operation on a method is one on its parameters. -/
theorem edit_eq (m : Method) (e : MethodEdit) :
    (m.edit e).2.parameters = (m.parameters.edit e.onParameters).2 ∧
      (m.edit e).1 = (m.parameters.edit e.onParameters).1.mapError fun d => .parameter m.name d.key := by
  cases e with
  | addParameter v =>
    by_cases h : v.name ∈ m.parameters.keys
    · rw [edit_addParameter_of_mem h, MethodEdit.onParameters, OrderedMap.edit_insert_of_mem v h]
      exact ⟨rfl, rfl⟩
    · obtain ⟨ps, hps, he⟩ := edit_addParameter_of_not_mem h
      obtain ⟨n, hn, he'⟩ := OrderedMap.edit_insert_of_not_mem v h
      rw [hps, MethodEdit.onParameters, hn, OrderedMap.ext (he.trans he'.symm)]
      exact ⟨rfl, rfl⟩
  | removeParameter key => exact ⟨rfl, rfl⟩
  | modifyParameter key f => exact ⟨rfl, rfl⟩
  | modify f =>
    rw [MethodEdit.onParameters, OrderedMap.edit_nothing]
    exact ⟨rfl, rfl⟩

theorem drives_parameters : Drives edit parameters MethodEdit.onParameters id where
  view_step m e := (edit_eq m e).1
  event_step m e := by
    rw [id_eq, (edit_eq m e).2]
    exact MapEdit.event?_mapError _ _ _

/-- The method behind a session. -/
def after (m : Method) (es : List MethodEdit) : Method := (session edit m es).2

/-- The additions and removals of parameters, of which the additions of the first ones come first. -/
def history (m : Method) (es : List MethodEdit) : List KeyEvent :=
  m.parameters.keys.map .added ++ events MethodEdit.onParameters id es (session edit m es).1

/-- What a session on a method leaves behind, and what becomes of a parameter that is added to it. -/
structure SessionLaws (m : Method) (es : List MethodEdit) : Prop where
  /-- The entries went through the operations on the parameters. -/
  entries : (m.after es).parameters.entries =
    (session Entries.edit m.parameters.entries (es.map MethodEdit.onParameters)).2
  /-- The keys are those that stand in the history, in the order of their last addition. -/
  keys : (m.after es).parameters.keys = KeyEvent.surviving (m.history es)
  add_standing : ∀ v : TypedVar, KeyEvent.Standing v.name (m.history es) →
    (m.after es).addParameter v = .error (.parameter (m.after es).name v.name) ∧
      ((m.after es).edit (.addParameter v)).2 = m.after es
  add_new : ∀ v : TypedVar, ¬KeyEvent.Standing v.name (m.history es) →
    ∃ ps, (m.after es).addParameter v = .ok { m.after es with parameters := ps } ∧
      ps.entries = (m.after es).parameters.entries ++ [(v.name, v)]

theorem laws_of_session (m : Method) (es : List MethodEdit) : m.SessionLaws es := by
  have hkeys : (m.after es).parameters.keys = KeyEvent.surviving (m.history es) :=
    drives_parameters.keys_session (KeyEvent.surviving_additions _).symm es
  refine ⟨(drives_parameters.entries_session m es).symm, hkeys, fun v hv => ?_, fun v hv => ?_⟩
  · rw [← KeyEvent.mem_surviving, ← hkeys] at hv
    exact ⟨addParameter_of_mem hv, by rw [edit_addParameter_of_mem hv]⟩
  · rw [← KeyEvent.mem_surviving, ← hkeys] at hv
    exact addParameter_of_not_mem hv

end Method

/-! ## Contents -/

namespace ClassContent

theorem keys_membersOf (c : ClassContent) (kind : MemberKind) : (c.membersOf kind).keys = c.keys kind := by
  cases kind <;> exact OrderedMap.keys_map _ _

theorem get?_membersOf (c : ClassContent) (kind : MemberKind) (key : Text) :
    (c.membersOf kind).get? key = c.member? kind key := by
  cases kind <;> exact OrderedMap.get?_map _ _ _

theorem size_eq_sum (c : ClassContent) : c.size = (c.membersOf .constant).size + (c.membersOf .property).size +
    (c.membersOf .method).size + (c.membersOf .traitUse).size := by
  simp [size, membersOf]

theorem edit_add_section {V : Type} {s : OrderedMap V} {key : Text} {value : V} {taken : DuplicateKey → Duplicate}
    {put : OrderedMap V → ClassContent} :
    (key ∈ s.keys → (do return put (← (s.insert key value).mapError taken)) = .error (taken ⟨key⟩)) ∧
      (key ∉ s.keys → ∃ n, n.entries = s.entries ++ [(key, value)] ∧
        (do return put (← (s.insert key value).mapError taken)) = (.ok (put n) : Except Duplicate ClassContent)) := by
  constructor
  · intro h
    rw [OrderedMap.insert_eq_error.2 ⟨h, rfl⟩]
    rfl
  · intro h
    obtain ⟨n, hn, he⟩ := OrderedMap.entries_insert h value
    refine ⟨n, he, ?_⟩
    rw [hn]
    rfl

theorem add_eq_error_of_mem {c : ClassContent} {m : Member} (h : m.name ∈ c.keys m.kind) :
    c.add m = .error (.member m.kind m.name) := by
  cases m with
  | constant e => exact edit_add_section.1 h
  | property e => exact edit_add_section.1 h
  | method e => exact edit_add_section.1 h
  | traitUse e => exact edit_add_section.1 h

/-- A member whose name is not taken becomes the last of its section. -/
theorem add_eq_ok_of_not_mem {c : ClassContent} {m : Member} (h : m.name ∉ c.keys m.kind) :
    ∃ d, c.add m = .ok d ∧ d.closingComment = c.closingComment ∧
      (d.membersOf m.kind).entries = (c.membersOf m.kind).entries ++ [(m.name, m)] ∧
      ∀ kind, m.kind ≠ kind → d.membersOf kind = c.membersOf kind := by
  cases m with
  | constant e =>
    obtain ⟨n, he, hn⟩ := edit_add_section.2 h
    refine ⟨_, hn, rfl, by simp [membersOf, OrderedMap.map, he, Member.kind, Member.name], fun kind hne => ?_⟩
    cases kind <;> first | rfl | exact absurd rfl hne
  | property e =>
    obtain ⟨n, he, hn⟩ := edit_add_section.2 h
    refine ⟨_, hn, rfl, by simp [membersOf, OrderedMap.map, he, Member.kind, Member.name], fun kind hne => ?_⟩
    cases kind <;> first | rfl | exact absurd rfl hne
  | method e =>
    obtain ⟨n, he, hn⟩ := edit_add_section.2 h
    refine ⟨_, hn, rfl, by simp [membersOf, OrderedMap.map, he, Member.kind, Member.name], fun kind hne => ?_⟩
    cases kind <;> first | rfl | exact absurd rfl hne
  | traitUse e =>
    obtain ⟨n, he, hn⟩ := edit_add_section.2 h
    refine ⟨_, hn, rfl, by simp [membersOf, OrderedMap.map, he, Member.kind, Member.name], fun kind hne => ?_⟩
    cases kind <;> first | rfl | exact absurd rfl hne

theorem edit_add_of_mem {c : ClassContent} {m : Member} (h : m.name ∈ c.keys m.kind) :
    c.edit (.add m) = ({ member := .duplicate (.member m.kind m.name) }, c) := by
  simp only [edit, add_eq_error_of_mem h]

theorem edit_add_of_not_mem {c : ClassContent} {m : Member} (h : m.name ∉ c.keys m.kind) :
    ∃ d, c.edit (.add m) = ({ member := .inserted }, d) ∧ d.closingComment = c.closingComment ∧
      (d.membersOf m.kind).entries = (c.membersOf m.kind).entries ++ [(m.name, m)] ∧
      ∀ kind, m.kind ≠ kind → d.membersOf kind = c.membersOf kind := by
  obtain ⟨d, hadd, hd⟩ := add_eq_ok_of_not_mem h
  exact ⟨d, by simp only [edit, hadd], hd⟩

theorem closingComment_edit (c : ClassContent) (e : ContentEdit) :
    (c.edit e).2.closingComment = c.closingComment := by
  cases e with
  | add m =>
    by_cases h : m.name ∈ c.keys m.kind
    · rw [edit_add_of_mem h]
    · obtain ⟨d, hd, hclosing, -⟩ := edit_add_of_not_mem h
      rw [hd, hclosing]
  | remove kind key => cases kind <;> rfl
  | modifyConstant key f => rfl
  | modifyProperty key f => rfl
  | modifyMethod key f => rfl
  | inMethod key e => rfl

/-- An operation leaves the sections of the other kinds alone. -/
theorem membersOf_edit_of_ne {c : ClassContent} {e : ContentEdit} {kind : MemberKind} (h : e.kind ≠ kind) :
    (c.edit e).2.membersOf kind = c.membersOf kind := by
  cases e with
  | add m =>
    by_cases hm : m.name ∈ c.keys m.kind
    · rw [edit_add_of_mem hm]
    · obtain ⟨d, hd, -, -, hother⟩ := edit_add_of_not_mem hm
      rw [hd, hother kind h]
  | remove k key => cases k <;> cases kind <;> first | rfl | exact absurd rfl h
  | modifyConstant key f => cases kind <;> first | rfl | exact absurd rfl h
  | modifyProperty key f => cases kind <;> first | rfl | exact absurd rfl h
  | modifyMethod key f => cases kind <;> first | rfl | exact absurd rfl h
  | inMethod key e => cases kind <;> first | rfl | exact absurd rfl h

/-- An operation is one on the section of its kind. -/
theorem membersOf_edit (c : ClassContent) (e : ContentEdit) :
    (c.edit e).2.membersOf e.kind = ((c.membersOf e.kind).edit e.onMembers).2 := by
  cases e with
  | add m =>
    have hkeys := keys_membersOf c m.kind
    by_cases hm : m.name ∈ c.keys m.kind
    · rw [edit_add_of_mem hm]
      simp only [ContentEdit.kind, ContentEdit.onMembers]
      rw [OrderedMap.edit_insert_of_mem m (hkeys ▸ hm)]
    · obtain ⟨d, hd, -, hown, -⟩ := edit_add_of_not_mem hm
      obtain ⟨n, hn, he⟩ := OrderedMap.edit_insert_of_not_mem (m := c.membersOf m.kind) m (hkeys ▸ hm)
      rw [hd]
      simp only [ContentEdit.kind, ContentEdit.onMembers]
      rw [hn]
      exact OrderedMap.ext (hown.trans he.symm)
  | remove kind key => cases kind <;> exact (OrderedMap.erase_map _ _ _).symm
  | modifyConstant key f =>
    exact (OrderedMap.modify_map (f := .constant) (g := f) (h := Member.mapConstant f) (fun _ => rfl) _ key).symm
  | modifyProperty key f =>
    exact (OrderedMap.modify_map (f := .property) (g := f) (h := Member.mapProperty f) (fun _ => rfl) _ key).symm
  | modifyMethod key f =>
    exact (OrderedMap.modify_map (f := .method) (g := f) (h := Member.mapMethod f) (fun _ => rfl) _ key).symm
  | inMethod key e =>
    exact (OrderedMap.modify_map (f := .method) (g := Element.map fun m => (m.edit e).2)
      (h := Member.mapMethod (Element.map fun m => (m.edit e).2)) (fun _ => rfl) _ key).symm

/-- The answer is that of the section; a name that is taken is told with the kind. -/
theorem member_edit (c : ClassContent) (e : ContentEdit) :
    (c.edit e).1.member =
      ((c.membersOf e.kind).edit e.onMembers).1.mapError fun d => .member e.kind d.key := by
  cases e with
  | add m =>
    have hkeys := keys_membersOf c m.kind
    simp only [ContentEdit.kind, ContentEdit.onMembers]
    by_cases hm : m.name ∈ c.keys m.kind
    · rw [edit_add_of_mem hm, OrderedMap.edit_insert_of_mem m (hkeys ▸ hm)]
      rfl
    · obtain ⟨d, hd, -⟩ := edit_add_of_not_mem hm
      obtain ⟨n, hn, -⟩ := OrderedMap.edit_insert_of_not_mem (m := c.membersOf m.kind) m (hkeys ▸ hm)
      rw [hd, hn]
      rfl
  | remove kind key => exact congrArg Answer.found (get?_membersOf c kind key).symm
  | modifyConstant key f => exact congrArg Answer.found (get?_membersOf c .constant key).symm
  | modifyProperty key f => exact congrArg Answer.found (get?_membersOf c .property key).symm
  | modifyMethod key f => exact congrArg Answer.found (get?_membersOf c .method key).symm
  | inMethod key e => exact congrArg Answer.found (get?_membersOf c .method key).symm

/-- Each operation is one on each of the sections. -/
theorem drives_membersOf (kind : MemberKind) :
    Drives edit (fun c => c.membersOf kind) (fun e => e.inSection kind) ContentAnswer.member where
  view_step c e := by
    unfold ContentEdit.inSection
    split
    · next h =>
      subst h
      exact membersOf_edit c e
    · next h => rw [OrderedMap.edit_nothing, membersOf_edit_of_ne h]
  event_step c e := by
    unfold ContentEdit.inSection
    split
    · next h =>
      subst h
      rw [member_edit]
      exact MapEdit.event?_mapError _ _ _
    · rfl

/-- Each addition makes a content longer by one, each removal shorter by one. -/
theorem size_edit (c : ClassContent) (e : ContentEdit) :
    (c.edit e).2.size + (e.onMembers.event? (c.edit e).1.member).toList.countP (!·.isAddition) =
      c.size + (e.onMembers.event? (c.edit e).1.member).toList.countP (·.isAddition) := by
  have hown := OrderedMap.size_edit (c.membersOf e.kind) e.onMembers
  have hother : ∀ kind, e.kind ≠ kind → ((c.edit e).2.membersOf kind).size = (c.membersOf kind).size := by
    intro kind h
    rw [membersOf_edit_of_ne h]
  rw [← membersOf_edit] at hown
  rw [member_edit, MapEdit.event?_mapError, size_eq_sum, size_eq_sum c]
  cases hkind : e.kind with
  | constant =>
    have h₁ := hother .property (by simp [hkind])
    have h₂ := hother .method (by simp [hkind])
    have h₃ := hother .traitUse (by simp [hkind])
    rw [hkind] at hown
    omega
  | property =>
    have h₁ := hother .constant (by simp [hkind])
    have h₂ := hother .method (by simp [hkind])
    have h₃ := hother .traitUse (by simp [hkind])
    rw [hkind] at hown
    omega
  | method =>
    have h₁ := hother .constant (by simp [hkind])
    have h₂ := hother .property (by simp [hkind])
    have h₃ := hother .traitUse (by simp [hkind])
    rw [hkind] at hown
    omega
  | traitUse =>
    have h₁ := hother .constant (by simp [hkind])
    have h₂ := hother .property (by simp [hkind])
    have h₃ := hother .method (by simp [hkind])
    rw [hkind] at hown
    omega

/-- Of all entries, an operation changes the one that it names. -/
theorem filter_edit (c : ClassContent) (e : ContentEdit) (kind : MemberKind) :
    ((c.edit e).2.membersOf kind).entries.filter (fun x => (kind, x.1) != (e.kind, e.key)) =
      (c.membersOf kind).entries.filter fun x => (kind, x.1) != (e.kind, e.key) := by
  by_cases hkind : e.kind = kind
  · subst hkind
    have hkey : e.onMembers.key? = some e.key := by cases e <;> rfl
    have hsame : (fun x : Text × Member => (e.kind, x.1) != (e.kind, e.key)) = fun x => x.1 != e.key := by
      funext x
      simp [bne, BEq.beq]
    have hframe := Entries.filter_edit (c.membersOf e.kind).entries hkey
    rw [OrderedMap.entries_edit, ← membersOf_edit] at hframe
    rw [hsame, hframe]
  · rw [membersOf_edit_of_ne hkind]

/-- A change in place keeps the keys, and the member is found under its key as before. -/
theorem edit_inPlace (c : ClassContent) {e : ContentEdit} {f : Member → Member} (h : e.inPlace? = some f) :
    (∀ kind, (c.edit e).2.keys kind = c.keys kind) ∧
      (c.edit e).2.member? e.kind e.key = (c.member? e.kind e.key).map f := by
  have hop : e.onMembers = .modify e.key f := by
    cases e <;> cases h <;> rfl
  have hown : (c.edit e).2.membersOf e.kind = (c.membersOf e.kind).modify e.key f := by
    rw [membersOf_edit, hop]
    rfl
  constructor
  · intro kind
    rw [← keys_membersOf, ← keys_membersOf]
    by_cases hkind : e.kind = kind
    · subst hkind
      rw [hown]
      exact OrderedMap.keys_edit (c.membersOf e.kind) (.modify e.key f)
    · rw [membersOf_edit_of_ne hkind]
  · rw [← get?_membersOf, hown, OrderedMap.get?_modify, get?_membersOf]

theorem member?_remove (c : ClassContent) (kind : MemberKind) (key : Text) :
    (c.remove kind key).member? kind key = none := by
  have hsection : (c.remove kind key).membersOf kind = (c.membersOf kind).erase key :=
    membersOf_edit c (.remove kind key)
  rw [← get?_membersOf, hsection, OrderedMap.get?_erase]

/-- What an operation does not name is found as before. -/
theorem member?_edit_of_ne {c : ClassContent} {e : ContentEdit} {kind : MemberKind} {key : Text}
    (h : ¬(e.kind = kind ∧ e.key = key)) : (c.edit e).2.member? kind key = c.member? kind key := by
  rw [← get?_membersOf, ← get?_membersOf]
  by_cases hkind : e.kind = kind
  · subst hkind
    have hkey : e.onMembers.key? = some e.key := by cases e <;> rfl
    have hne : e.key ≠ key := fun hk => h ⟨rfl, hk⟩
    rw [membersOf_edit, OrderedMap.get?_edit_of_ne hkey hne]
  · rw [membersOf_edit_of_ne hkind]

/-- An operation that does not replace a method is none on it, or one of those on methods. -/
theorem methods_edit {c : ClassContent} {e : ContentEdit} {key : Text} {x : Element Method}
    (h : c.methods.get? key = some x) (he : ¬e.Replaces key) :
    (c.edit e).2.methods.get? key =
      some ((e.inMethod? key).elim x fun o => x.map fun m => (m.edit o).2) := by
  have hother : ¬(e.kind = .method ∧ e.key = key) → (c.edit e).2.methods.get? key = some x := by
    intro hne
    have hsame : ((c.edit e).2.methods.get? key).map Member.method = (c.methods.get? key).map Member.method :=
      member?_edit_of_ne hne
    rw [Option.map_injective (fun _ _ hm => Member.method.inj hm) hsame, h]
  cases e with
  | add m =>
    by_cases hm : m.kind = .method ∧ m.name = key
    · have hmem : m.name ∈ c.keys m.kind := by
        rw [hm.1, hm.2]
        exact (OrderedMap.isSome_get? c.methods key).1 (by rw [h]; rfl)
      rw [edit_add_of_mem hmem, h]
      rfl
    · exact hother hm
  | remove kind k =>
    refine hother fun hk => he (.inl ?_)
    obtain ⟨rfl, rfl⟩ := hk
    rfl
  | modifyConstant k f => exact hother nofun
  | modifyProperty k f => exact hother nofun
  | modifyMethod k f =>
    refine hother fun hk => he (.inr ⟨f, ?_⟩)
    rw [← hk.2]
    rfl
  | inMethod k o =>
    by_cases hk : k = key
    · subst hk
      simp only [ContentEdit.inMethod?, if_true, Option.elim_some]
      rw [edit, modifyMethod, OrderedMap.get?_modify, h]
      rfl
    · rw [hother fun h => hk h.2, ContentEdit.inMethod?, if_neg hk]
      rfl

theorem edit_addParameter {c : ClassContent} {key : Text} {x : Element Method} {v : TypedVar}
    (h : c.methods.get? key = some x) (hv : v.name ∈ x.payload.parameters.keys) :
    c.edit (.inMethod key (.addParameter v)) =
      ({ member := .found (some (.method x))
         parameter := some (.duplicate (.parameter x.payload.name v.name)) }, c) := by
  have hedit := Method.edit_addParameter_of_mem hv
  have hsame : c.methods.modify key (Element.map fun m => (m.edit (.addParameter v)).2) = c.methods := by
    refine OrderedMap.modify_eq_self fun y hy => ?_
    rw [h, Option.some.injEq] at hy
    subst hy
    rw [Element.map, hedit]
  simp only [edit, modifyMethod, hsame, member?, h, Option.map_some, hedit]

end ClassContent

/-! ## Laws of a session -/

namespace ClassContent

/-- The content behind a session. -/
def after (c : ClassContent) (es : List ContentEdit) : ClassContent := (session edit c es).2

/-- The additions and removals in a section, of which the additions of its first members come first. -/
def history (c : ClassContent) (es : List ContentEdit) (kind : MemberKind) : List KeyEvent :=
  (c.keys kind).map .added ++ events (fun e => e.inSection kind) ContentAnswer.member es (session edit c es).1

/-- The additions and removals of a session in all sections together. -/
def changes (c : ClassContent) (es : List ContentEdit) : List KeyEvent :=
  events ContentEdit.onMembers ContentAnswer.member es (session edit c es).1

/-- What a session leaves behind, and what becomes of the operation that follows it. -/
structure SessionLaws (c : ClassContent) (es : List ContentEdit) : Prop where
  /-- Each section went through the operations on members of its kind. -/
  entries : ∀ kind, ((c.after es).membersOf kind).entries =
    (session Entries.edit (c.membersOf kind).entries (es.map fun e => e.inSection kind)).2
  /-- The keys are those that stand in the history, in the order of their last addition. -/
  keys : ∀ kind, (c.after es).keys kind = KeyEvent.surviving (c.history es kind)
  size : (c.after es).size + (c.changes es).countP (!·.isAddition) =
    c.size + (c.changes es).countP (·.isAddition)
  add_standing : ∀ m : Member, KeyEvent.Standing m.name (c.history es m.kind) →
    (c.after es).add m = .error (.member m.kind m.name) ∧ ((c.after es).edit (.add m)).2 = c.after es
  add_new : ∀ m : Member, ¬KeyEvent.Standing m.name (c.history es m.kind) →
    ∃ d, (c.after es).add m = .ok d ∧
      (d.membersOf m.kind).entries = ((c.after es).membersOf m.kind).entries ++ [(m.name, m)]
  /-- Of all entries, an operation changes the one that it names. -/
  frame : ∀ e kind, (((c.after es).edit e).2.membersOf kind).entries.filter
      (fun x => (kind, x.1) != (e.kind, e.key)) =
    ((c.after es).membersOf kind).entries.filter fun x => (kind, x.1) != (e.kind, e.key)
  frame_closing : ∀ e, ((c.after es).edit e).2.closingComment = (c.after es).closingComment
  /-- A member that is changed in place, its name included, stays where it was and is found under its key. -/
  inPlace : ∀ e f, e.inPlace? = some f → (∀ kind, ((c.after es).edit e).2.keys kind = (c.after es).keys kind) ∧
    ((c.after es).edit e).2.member? e.kind e.key = ((c.after es).member? e.kind e.key).map f
  remove : ∀ kind key,
    ((c.after es).edit (.remove kind key)).1.member = .found ((c.after es).member? kind key) ∧
      ((c.after es).remove kind key).member? kind key = none
  /-- A method that is never replaced went through the operations on it. -/
  methods : ∀ key x, c.methods.get? key = some x → (∀ e ∈ es, ¬e.Replaces key) →
    (c.after es).methods.get? key = some (x.map fun m => m.after (es.filterMap (ContentEdit.inMethod? key))) ∧
      x.payload.SessionLaws (es.filterMap (ContentEdit.inMethod? key))
  /-- A parameter whose name is taken cannot be added to a method, and then nothing changes. -/
  addParameter : ∀ key x, (c.after es).methods.get? key = some x → ∀ v : TypedVar,
    v.name ∈ x.payload.parameters.keys → (c.after es).edit (.inMethod key (.addParameter v)) =
      ({ member := .found (some (.method x))
         parameter := some (.duplicate (.parameter x.payload.name v.name)) }, c.after es)

theorem methods_after {c : ClassContent} {es : List ContentEdit} {key : Text} {x : Element Method}
    (h : c.methods.get? key = some x) (hes : ∀ e ∈ es, ¬e.Replaces key) :
    (c.after es).methods.get? key =
      some (x.map fun m => m.after (es.filterMap (ContentEdit.inMethod? key))) := by
  induction es generalizing c x with
  | nil => exact h
  | cons e es ih =>
    have hstep := methods_edit h (hes e List.mem_cons_self)
    have hrest := ih hstep fun e' he' => hes e' (List.mem_cons_of_mem e he')
    rw [List.filterMap_cons]
    cases hop : e.inMethod? key with
    | none =>
      rw [hop] at hrest
      exact hrest
    | some o =>
      rw [hop] at hrest
      exact hrest

theorem size_after (c : ClassContent) (es : List ContentEdit) :
    (c.after es).size + (c.changes es).countP (!·.isAddition) =
      c.size + (c.changes es).countP (·.isAddition) := by
  induction es generalizing c with
  | nil => rfl
  | cons e es ih =>
    have hstep := size_edit c e
    have hrest := ih (c.edit e).2
    have hchanges : c.changes (e :: es) =
        (e.onMembers.event? (c.edit e).1.member).toList ++ (c.edit e).2.changes es := by
      simp only [changes, events, session, List.zip_cons_cons, List.filterMap_cons]
      cases e.onMembers.event? (c.edit e).1.member <;> rfl
    have hafter : c.after (e :: es) = (c.edit e).2.after es := rfl
    rw [hchanges, hafter, List.countP_append, List.countP_append]
    omega

/-- **Whatever is done to a content, its sections stay consistent.** A name is taken exactly as long as it stands in the
history of its section, in which renaming a member leaves no trace; and each operation keeps to the entry that it
names. -/
theorem session_laws (c : ClassContent) (es : List ContentEdit) : c.SessionLaws es := by
  have hkeys : ∀ kind, (c.after es).keys kind = KeyEvent.surviving (c.history es kind) := by
    intro kind
    rw [← keys_membersOf]
    refine (drives_membersOf kind).keys_session ?_ es
    rw [keys_membersOf, KeyEvent.surviving_additions]
  exact {
    entries := fun kind => ((drives_membersOf kind).entries_session c es).symm
    keys := hkeys
    size := size_after c es
    add_standing := by
      intro m hm
      rw [← KeyEvent.mem_surviving, ← hkeys] at hm
      exact ⟨add_eq_error_of_mem hm, by rw [edit_add_of_mem hm]⟩
    add_new := by
      intro m hm
      rw [← KeyEvent.mem_surviving, ← hkeys] at hm
      obtain ⟨d, hadd, -, hown, -⟩ := add_eq_ok_of_not_mem hm
      exact ⟨d, hadd, hown⟩
    frame := filter_edit _
    frame_closing := closingComment_edit _
    inPlace := fun e f h => edit_inPlace _ h
    remove := fun kind key => ⟨rfl, member?_remove _ kind key⟩
    methods := fun key x h hes => ⟨methods_after h hes, Method.laws_of_session _ _⟩
    addParameter := fun key x h v hv => edit_addParameter h hv }

end ClassContent

end PhpClass
