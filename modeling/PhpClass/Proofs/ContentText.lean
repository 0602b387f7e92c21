import Mathlib.Data.List.Basic
import PhpClass.Proofs.Body
import PhpClass.Proofs.DeclarationText

/-!
# Class bodies that are written

The sections of a content are written one after the other, and what is written of them is the text of a body
with the members as they are read back (`Grammar.body_render`). Adding these members gives the content as it
is read back (`ClassContent.reread`), in which each member stands under its name, because the names in a
section that can be written are distinct.
-/

namespace PhpClass

open Text
open OrderedMap (values_of_entries)

namespace ClassContent

/-- The members in the order in which they are written. -/
def members (c : ClassContent) : List Member :=
  c.constants.values.map .constant ++ c.properties.values.map .property ++ c.traits.values.map .traitUse ++
    c.methods.values.map .method

/-- A content that can be written: its members can, and no two of one kind have the same name. -/
structure Writable (c : ClassContent) : Prop where
  members : ∀ m ∈ c.members, m.Writable
  constants : (c.constants.values.map fun e => e.payload.name).Nodup
  properties : (c.properties.values.map fun e => e.payload.name).Nodup
  methods : (c.methods.values.map fun e => e.payload.name).Nodup
  traits : (c.traits.values.map Element.payload).Nodup

/-- The comments that are written on lines of their own. -/
def leadingComments (c : ClassContent) : List (Option Text) :=
  c.members.map Member.commentBefore ++ [c.closingComment]

/-- The content as it is read back, with each member under its name. -/
def reread (c : ClassContent) : ClassContent where
  constants := .keyed (fun e => e.payload.name) (c.constants.values.map Element.reread)
  properties := .keyed (fun e => e.payload.name) (c.properties.values.map Element.reread)
  methods := .keyed (fun e => e.payload.name) (c.methods.values.map fun e => (e.map Method.keyed).reread)
  traits := .keyed Element.payload (c.traits.values.map Element.reread)
  closingComment := c.closingComment.bind Scan.kept

theorem render_pieces (l : Layout) (c : ClassContent) : l.render c.pieces =
    l.render (c.members.flatMap Member.pieces) ++
      (l.newline ++ l.render (Comment.before 1 c.closingComment)) := by
  unfold pieces members
  simp [List.flatMap_append, List.flatMap_map, Member.pieces]

theorem filterMap_members {α : Type} (c : ClassContent) (f : Member → Option α) : c.members.filterMap f =
    c.constants.values.filterMap (fun e => f (.constant e)) ++
      c.properties.values.filterMap (fun e => f (.property e)) ++
      c.traits.values.filterMap (fun e => f (.traitUse e)) ++
      c.methods.values.filterMap fun e => f (.method e) := by
  simp [members, List.filterMap_map]

/-- The content that is read back holds the members that are read back. -/
theorem holds_reread {c : ClassContent} (h : c.Writable) : c.reread.Holds (c.members.map Member.reread) where
  constants := by
    refine (OrderedMap.entries_keyed (by rw [List.map_map]; exact h.constants)).trans ?_
    rw [List.filterMap_map, filterMap_members]
    simp [Member.reread, Member.constant?, Function.comp_def]
  properties := by
    refine (OrderedMap.entries_keyed (by rw [List.map_map]; exact h.properties)).trans ?_
    rw [List.filterMap_map, filterMap_members]
    simp [Member.reread, Member.property?, Function.comp_def]
  methods := by
    refine (OrderedMap.entries_keyed (by rw [List.map_map]; exact h.methods)).trans ?_
    rw [List.filterMap_map, filterMap_members]
    simp [Member.reread, Member.method?, Function.comp_def]
  traits := by
    refine (OrderedMap.entries_keyed (by rw [List.map_map]; exact h.traits)).trans ?_
    rw [List.filterMap_map, filterMap_members]
    simp [Member.reread, Member.traitUse?, Function.comp_def]

/-! ## Contents that are read -/

variable {c : ClassContent} {ms : List Member}

/-- The members of a content are those that it holds. -/
theorem Holds.of_mem {m : Member} (h : c.Holds ms) (hm : m ∈ c.members) : m ∈ ms := by
  unfold members at hm
  rw [(values_of_entries h.constants).1, (values_of_entries h.properties).1, (values_of_entries h.methods).1,
    (values_of_entries h.traits).1] at hm
  simp only [List.mem_append, List.mem_map, List.mem_filterMap] at hm
  rcases hm with ((⟨e, ⟨n, hn, he⟩, rfl⟩ | ⟨e, ⟨n, hn, he⟩, rfl⟩) | ⟨e, ⟨n, hn, he⟩, rfl⟩) |
    ⟨e, ⟨n, hn, he⟩, rfl⟩ <;> cases n <;> cases he <;> exact hn

/-- A content that holds members that can be written can be written. -/
theorem Holds.writable (h : c.Holds ms) (hms : ∀ m ∈ ms, m.Writable) : c.Writable where
  members := fun m hm => hms m (h.of_mem hm)
  constants := (values_of_entries h.constants).2 ▸ c.constants.nodup_keys
  properties := (values_of_entries h.properties).2 ▸ c.properties.nodup_keys
  methods := (values_of_entries h.methods).2 ▸ c.methods.nodup_keys
  traits := (values_of_entries h.traits).2 ▸ c.traits.nodup_keys

theorem keyed_eq_self {V : Type} {s : OrderedMap V} {name : V → Text} {f : V → V}
    (hkeys : s.keys = s.values.map name) (hf : ∀ v ∈ s.values, f v = v) :
    OrderedMap.keyed name (s.values.map f) = s := by
  rw [List.map_congr_left hf, List.map_id', ← OrderedMap.eq_keyed hkeys]

/-- A content that holds members such as are read is read back as it is. -/
theorem Holds.reread_eq (h : c.Holds ms) (hms : ∀ m ∈ ms, m.Normal)
    (hclosing : ∀ t ∈ c.closingComment, isSpace t = false) : c.reread = c := by
  have hself : ∀ m ∈ c.members, m.reread = m := fun m hm => (hms m (h.of_mem hm)).reread_eq
  unfold members at hself
  simp only [List.mem_append, List.mem_map, or_imp, forall_and, forall_exists_index, and_imp,
    forall_apply_eq_imp_iff₂] at hself
  obtain ⟨⟨⟨hconstants, hproperties⟩, htraits⟩, hmethods⟩ := hself
  unfold reread
  rw [keyed_eq_self (values_of_entries h.constants).2 fun e he => Member.constant.inj (hconstants e he),
    keyed_eq_self (values_of_entries h.properties).2 fun e he => Member.property.inj (hproperties e he),
    keyed_eq_self (values_of_entries h.methods).2 fun e he => Member.method.inj (hmethods e he),
    keyed_eq_self (values_of_entries h.traits).2 fun e he => Member.traitUse.inj (htraits e he),
    Scan.bind_kept_eq_self hclosing]

end ClassContent

namespace Grammar

variable {l : Layout} {w : Text}

/-- Members that are written one after the other are the text of a body in front of its end. -/
theorem body_members (hl : l.Blank) {ms : List Member}
    (hms : ∀ m ∈ ms, m.Writable ∧ ∀ t ∈ m.commentBefore, Comment.Writable t) (hw : Within Byte.isBlank w)
    {tail rest : Text} {closing : Option Text}
    (ht : ∀ w, Within Byte.isBlank w → Body (w ++ tail) [] closing rest) :
    Body (w ++ (l.render (ms.flatMap Member.pieces) ++ tail)) (ms.map Member.reread) closing rest := by
  induction ms generalizing w with
  | nil => exact ht w hw
  | cons m ms ih =>
    obtain ⟨hm, hc⟩ := hms m List.mem_cons_self
    obtain ⟨g, s, behind, cs, alone, hr⟩ := Member.exists_renders hl hm hc
    have hrest := ih (fun x hx => hms x (List.mem_cons_of_mem _ hx)) hl.newline
    have hbody := Body.member ((Scan.isGap_blanks hw).append hr.isGap) hr.declares
      (by rw [hr.trailing]; exact hrest)
    rw [List.nil_append, hr.attach] at hbody
    simpa [hr.text] using hbody

/-- What is written of a content is the text of a body. -/
theorem body_render (hl : l.Blank) {c : ClassContent} (h : c.Writable)
    (hc : ∀ d ∈ c.leadingComments, ∀ t ∈ d, Comment.Writable t) (hw : Within Byte.isBlank w) (rest : Text) :
    body {} (w ++ (l.render c.pieces ++ Byte.closeBrace :: rest)) = .ok (c.reread, rest) := by
  have hmembers : ∀ m ∈ c.members, m.Writable ∧ ∀ t ∈ m.commentBefore, Comment.Writable t := fun m hm =>
    ⟨h.members m hm, hc _ (List.mem_append_left _ (List.mem_map_of_mem hm))⟩
  have hcomment : ∀ t ∈ c.closingComment, Comment.Writable t :=
    hc _ (List.mem_append_right _ (List.mem_singleton_self _))
  obtain ⟨cs, hg, hcs⟩ := Comment.isGap_before hl 1 hcomment
  have hclose : ∀ w, Within Byte.isBlank w →
      Body (w ++ (l.newline ++ (l.render (Comment.before 1 c.closingComment) ++ Byte.closeBrace :: rest))) []
        (c.closingComment.bind Scan.kept) rest := by
    intro w hw
    have hbody : Body (_ ++ Byte.closeBrace :: rest) [] _ rest :=
      .close ((Scan.isGap_blanks (within_append.2 ⟨hw, hl.newline⟩)).append hg)
    rw [List.nil_append, hcs] at hbody
    simpa using hbody
  have hbody := body_eq (body_members hl hmembers hw hclose) {}
  have hadd : ({} : ClassContent).addAll (c.members.map Member.reread) =
      .ok { c.reread with closingComment := none } :=
    (ClassContent.addAll_eq_ok ClassContent.holds_empty).2
      ⟨ClassContent.holds_closing.2 (ClassContent.holds_reread h), rfl⟩
  rw [ClassContent.render_pieces]
  simp only [List.append_assoc]
  rw [hbody, bodyResult, hadd]
  rfl

end Grammar

end PhpClass
