import PhpClass.Proofs.RoundTrip
import PhpClass.Scan.Offset

/-!
# What is read is well formed

Each text in a class file that is read is such as its place asks for (`ClassFile.wellFormed_of_parse`). What
that means is said in terms of the scanners, asked about the text alone:

* names up to a `;` are trimmed and hold no `;` outside brackets (`IsClause`);
* values are trimmed and end at a `;` that is put behind them, strings passed over (`IsValue`);
* types are read whole, and a body is the bracketed text that begins with its first byte (`IsWholeBody`);
* parameters have distinct names, and their defaults hold no comment and are one part of a list;
* comments in front of something are visible, and those behind something are trimmed and on one line.

So who edits a class file that was read finds in it nothing that could not be written.
-/

namespace PhpClass

open Text

/-! ## Names, values and bodies -/

/-- A text in front of a `;`: a namespace, an import, or the names behind `use`. -/
structure IsClause (t : Text) : Prop where
  ne_nil : t ≠ []
  trim : trim t = t
  /-- Each `;` in it stands inside brackets, as a search for a terminator counts them. -/
  inside : ∀ a b, t = a ++ ascii ';' :: b → a.foldl Scan.nest 0 ≠ 0

/-- The value of a constant or the default of a property. -/
structure IsValue (t : Text) : Prop where
  ne_nil : t ≠ []
  trim : trim t = t
  terminator : Scan.terminatorAt true (ascii ';') (t ++ [ascii ';']) 0 = .ok t.length

/-- A body with its braces, the last of which is the partner of the first, or no body. -/
def IsWholeBody (t : Text) : Prop :=
  t = [] ∨ (t.head? = some Byte.openBrace ∧ Scan.partnerAt t 0 = .ok (t.length - 1))

namespace Scan

/-- What is passed over holds no terminator outside brackets. -/
theorem Passes.foldl_nest_ne_zero {terminator : UInt8} {t a b : Text} {d e : Nat}
    (h : Passes false terminator t d e) (ht : t = a ++ terminator :: b) : a.foldl nest d ≠ 0 := by
  induction h generalizing a with
  | nil => exact absurd ht.symm (by simp)
  | quoted hq => cases hq
  | @byte c u d e _ hc _ ih =>
    cases a with
    | nil =>
      obtain ⟨rfl, -⟩ := List.cons.inj ht
      intro hd
      exact hc ⟨hd, rfl⟩
    | cons x a =>
      obtain ⟨rfl, hu⟩ := List.cons.inj ht
      exact ih hu

theorem IsStatement.isClause {t : Text} (h : IsStatement false t) : IsClause t where
  ne_nil := h.ne_nil
  trim := h.trim
  inside := fun _ _ ht => h.passes.foldl_nest_ne_zero ht

theorem IsStatement.isValue {t : Text} (h : IsStatement true t) : IsValue t where
  ne_nil := h.ne_nil
  trim := h.trim
  terminator := by
    unfold terminatorAt fromOffset
    rw [List.drop_zero, h.ends]
    simp [Except.mapError, bind, Except.bind, pure, Except.pure, offsetOf]

end Scan

theorem IsBody.isWholeBody {t : Text} (h : IsBody t) : IsWholeBody t := by
  rcases h with rfl | ⟨hhead, hb⟩
  · exact .inl rfl
  · obtain ⟨rest, hrest, he⟩ := bind_eq_ok.1 hb
    obtain ⟨-, rfl⟩ := Prod.mk.inj (Except.ok.inj he)
    refine .inr ⟨hhead, ?_⟩
    unfold Scan.partnerAt Scan.fromOffset
    rw [if_pos (Nat.zero_le _), List.drop_zero, hrest]
    rfl

/-! ## Members -/

/-- A property: its name is a `$` and an identifier, its type is read whole and is no word of another kind of
member, and it has a scope. -/
structure TypedVar.WellFormedProperty (v : TypedVar) : Prop where
  name : ∃ word, IsIdent word ∧ v.name = utf8 "$" ++ word
  type_ne_nil : v.type ≠ []
  type : Text.type v.type = (v.type, [])
  notWord : v.type ∉ Grammar.notTypes
  scope : v.scope.isSome = true
  default : ∀ d ∈ v.defaultValue, IsValue d

/-- A method: the names of its parameters are distinct, and each default is one part of a parameter list, with
its strings and brackets complete and without comments. -/
structure Method.WellFormed (m : Method) : Prop where
  name : IsIdent m.name
  parameters : ∀ v ∈ m.parameters.values, IsParameterName v.name ∧ ∀ d ∈ v.defaultValue, IsDefault d
  names : (m.parameters.values.map TypedVar.name).Nodup
  returnType : ∀ t ∈ m.returnType, IsReturnType t
  body : IsWholeBody m.body

theorem Text.type_of_isType {ty : Text} (h : IsType ty) : type ty = (ty, []) := by
  unfold type
  rw [isType_iff.1 h]
  simp [upTo]

theorem TypedVar.IsProperty.wellFormed {v : TypedVar} (h : v.IsProperty) : v.WellFormedProperty where
  name := h.name
  type_ne_nil := h.type.ne_nil
  type := type_of_isType h.type.isType
  notWord := h.type.notWord
  scope := h.hasScope
  default := fun d hd => (h.default d hd).isValue

theorem Method.Writable.wellFormed {m : Method} (h : m.Writable) : m.WellFormed where
  name := h.name
  parameters := fun v hv => ⟨(h.parameters v hv).name, (h.parameters v hv).default⟩
  names := h.names
  returnType := h.returnType
  body := h.body.isWholeBody

/-! ## Class files -/

namespace ClassFile

/-- The comments in front of the parts of the file. -/
def commentsBefore (f : ClassFile) : List (Option Text) :=
  f.namespaceName.commentBefore :: f.imports.map Element.commentBefore ++
    [f.signature.commentBefore, f.parent.bind Element.commentBefore] ++ f.content.leadingComments

/-- The comments behind the parts of the file. -/
def commentsBehind (f : ClassFile) : List (Option Text) :=
  f.namespaceName.trailingComment :: f.imports.map Element.trailingComment ++
    [f.signature.trailingComment, f.parent.bind Element.trailingComment] ++
    f.content.members.map Member.trailingComment

/-- Each text of the class file is such as its place asks for. -/
structure WellFormed (f : ClassFile) : Prop where
  namespaceName : IsClause f.namespaceName.payload
  imports : ∀ i ∈ f.imports, IsClause i.payload
  className : IsIdent f.className
  parent : ∀ p ∈ f.parent, IsName p.payload
  interfaces : ∀ i ∈ f.interfaces, IsName i
  constants : ∀ e ∈ f.content.constants.values, IsIdent e.payload.name ∧ IsValue e.payload.value
  properties : ∀ e ∈ f.content.properties.values, e.payload.WellFormedProperty
  methods : ∀ e ∈ f.content.methods.values, e.payload.WellFormed
  traits : ∀ e ∈ f.content.traits.values, IsClause e.payload
  commentsBefore : ∀ c ∈ f.commentsBefore, ∀ t ∈ c, isSpace t = false
  commentsBehind : ∀ c ∈ f.commentsBehind, ∀ t ∈ c, Comment.IsShown t

variable {f : ClassFile}

theorem isSpace_commentsBefore (h : f.HeaderNormal) (hms : ∀ m ∈ f.content.members, m.Normal)
    (hclosing : ∀ t ∈ f.content.closingComment, isSpace t = false) :
    ∀ c ∈ f.commentsBefore, ∀ t ∈ c, isSpace t = false := by
  intro c hc t ht
  unfold commentsBefore ClassContent.leadingComments at hc
  simp only [List.mem_append, List.mem_cons, List.mem_map, List.not_mem_nil, or_false] at hc
  rcases hc with ((rfl | ⟨i, hi, rfl⟩) | rfl | rfl) | ⟨m, hm, rfl⟩ | rfl
  · exact h.namespaceName.before t ht
  · exact (h.imports i hi).before t ht
  · exact h.signature.before t ht
  · obtain ⟨p, hp, ht⟩ := Option.bind_eq_some_iff.1 ht
    exact (h.parent p hp).before t ht
  · exact (hms m hm).before t ht
  · exact hclosing t ht

theorem isShown_commentsBehind (h : f.HeaderNormal) (hms : ∀ m ∈ f.content.members, m.Normal) :
    ∀ c ∈ f.commentsBehind, ∀ t ∈ c, Comment.IsShown t := by
  intro c hc t ht
  unfold commentsBehind at hc
  simp only [List.mem_append, List.mem_cons, List.mem_map, List.not_mem_nil, or_false] at hc
  rcases hc with ((rfl | ⟨i, hi, rfl⟩) | rfl | rfl) | ⟨m, hm, rfl⟩
  · exact h.namespaceName.behind t ht
  · exact (h.imports i hi).behind t ht
  · exact h.signature.behind t ht
  · obtain ⟨p, hp, ht⟩ := Option.bind_eq_some_iff.1 ht
    exact (h.parent p hp).behind t ht
  · exact (hms m hm).behind t ht

/-- **Each class file that is read is well formed.** -/
theorem wellFormed_of_parse {t : Text} (h : ClassFile.parse t = .ok f) : f.WellFormed := by
  obtain ⟨hheader, hnormal, ⟨ms, hholds, hms⟩, hclosing⟩ := writable_and_normal_of_parse h
  have hmembers : ∀ m ∈ f.content.members, m.Writable ∧ m.Normal := fun m hm => hms m (hholds.of_mem hm)
  have hwritable := fun m hm => (hmembers m hm).1
  have hcomments := fun m hm => (hmembers m hm).2
  unfold ClassContent.members at hwritable
  simp only [List.mem_append, List.mem_map, or_imp, forall_and, forall_exists_index, and_imp,
    forall_apply_eq_imp_iff₂] at hwritable
  obtain ⟨⟨⟨hconstants, hproperties⟩, htraits⟩, hmethods⟩ := hwritable
  exact {
    namespaceName := hheader.namespaceName.isClause
    imports := fun i hi => (hheader.imports i hi).isClause
    className := hheader.className
    parent := hheader.parent
    interfaces := hheader.interfaces
    constants := fun e he => ⟨(hconstants e he).1, (hconstants e he).2.isValue⟩
    properties := fun e he => (hproperties e he).wellFormed
    methods := fun e he => (hmethods e he).wellFormed
    traits := fun e he => (htraits e he).1.isClause
    commentsBefore := isSpace_commentsBefore hnormal hcomments hclosing
    commentsBehind := isShown_commentsBehind hnormal hcomments }

/-- A class with a member of each kind: a value that is a string with a `;` in it, a default that is a list, a
parameter that is passed by reference, and a body behind a comment. -/
theorem exists_wellFormed : ∃ f, ClassFile.parse (utf8
      "<?php namespace A; class C \x7b const N = ';'; public int $p = [1, 2]; use T; function f(int &$x = 0): int /* 1 */ \x7b \x7d // 2\n \x7d") =
        .ok f ∧ f.content.size = 4 ∧ f.WellFormed := by
  have hread : (ClassFile.parse (utf8
      "<?php namespace A; class C \x7b const N = ';'; public int $p = [1, 2]; use T; function f(int &$x = 0): int /* 1 */ \x7b \x7d // 2\n \x7d")
        ).toOption.map (fun f => f.content.size) = some 4 := by decide +kernel
  obtain ⟨f, hf, hsize⟩ := map_toOption_eq_some.1 hread
  exact ⟨f, hf, hsize, ClassFile.wellFormed_of_parse hf⟩

end ClassFile

end PhpClass
