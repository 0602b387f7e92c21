import PhpClass.Proofs.OrderedMap
import PhpClass.Proofs.Parameter

/-!
# Lists of parameters

A list of parameters is read part by part (`Grammar.Listed`), and the parameters are added to a method
under their names (`Method.addParameters_eq_ok`). What is read from a bracketed list can be written
(`Grammar.isParameter_of_listed`), and what is written is a bracketed list that reads back as the same
parameters (`Grammar.exists_items`).
-/

namespace PhpClass

open Text

namespace Method

/-! ## Adding parameters -/

theorem addParameter_eq_ok {m n : Method} {v : TypedVar} : m.addParameter v = .ok n ↔
    ∃ ps, m.parameters.insert v.name v = .ok ps ∧ n = { m with parameters := ps } := by
  unfold addParameter
  rw [bind_eq_ok]
  simp only [mapError_eq_ok]
  constructor
  · rintro ⟨ps, hps, he⟩
    cases he
    exact ⟨ps, hps, rfl⟩
  · rintro ⟨ps, hps, rfl⟩
    exact ⟨ps, hps, rfl⟩

/-- Parameters are added one after the other under their names. -/
theorem addParameters_eq_ok {m n : Method} {vs : List TypedVar} : m.addParameters vs = .ok n ↔
    ∃ ps, n = { m with parameters := ps } ∧
      ps.entries = m.parameters.entries ++ vs.map fun v => (v.name, v) := by
  induction vs generalizing m with
  | nil =>
    rw [addParameters, Except.ok.injEq]
    constructor
    · rintro rfl
      exact ⟨m.parameters, rfl, by simp⟩
    · rintro ⟨ps, rfl, he⟩
      have hps : ps = m.parameters := OrderedMap.ext (by simpa using he)
      rw [hps]
  | cons v vs ih =>
    rw [addParameters, bind_eq_ok]
    constructor
    · rintro ⟨m', hm', hn⟩
      obtain ⟨qs, hqs, rfl⟩ := addParameter_eq_ok.1 hm'
      obtain ⟨ps, rfl, he⟩ := ih.1 hn
      refine ⟨ps, rfl, ?_⟩
      rw [he, OrderedMap.insert_eq_ok.1 hqs]
      simp
    · rintro ⟨ps, rfl, he⟩
      obtain ⟨qs, hqs⟩ := OrderedMap.exists_take (e := (v.name, v)) he
      refine ⟨_, addParameter_eq_ok.2 ⟨qs, OrderedMap.insert_eq_ok.2 hqs, rfl⟩, ih.2 ⟨ps, rfl, ?_⟩⟩
      rw [he, hqs]
      simp

end Method

namespace Grammar

/-! ## Reading the parts -/

/-- The parameters in the parts of a list. A part without code holds none. -/
inductive Listed : List Text → List TypedVar → Prop where
  | nil : Listed [] []
  | blank {part code : Text} {n : Nat} {parts : List Text} {vs : List TypedVar}
      (hp : Scan.strip part = .ok ⟨code, n⟩) (hs : isSpace code = true) (h : Listed parts vs) :
      Listed (part :: parts) vs
  | cons {part code : Text} {n : Nat} {v : TypedVar} {parts : List Text} {vs : List TypedVar}
      (hp : Scan.strip part = .ok ⟨code, n⟩) (hs : isSpace code = false)
      (hv : parameter? code = some v) (h : Listed parts vs) : Listed (part :: parts) (v :: vs)

theorem parameterIn_eq_ok {left : Nat} {part : Text} {o : Option TypedVar} :
    parameterIn left part = .ok o ↔ ∃ code n, Scan.strip part = .ok ⟨code, n⟩ ∧
      ((isSpace code = true ∧ o = none) ∨
        (isSpace code = false ∧ ∃ v, parameter? code = some v ∧ o = some v)) := by
  unfold parameterIn
  rw [bind_eq_ok]
  simp only [Read.ofScan_eq_ok]
  constructor
  · rintro ⟨⟨code, n⟩, hs, h⟩
    refine ⟨code, n, hs, ?_⟩
    dsimp only at h
    split at h
    · next hsp => cases h; exact .inl ⟨hsp, rfl⟩
    · next hsp =>
      right
      refine ⟨by simpa using hsp, ?_⟩
      split at h
      · next v hv => cases h; exact ⟨v, hv, rfl⟩
      · cases h
  · rintro ⟨code, n, hs, ⟨hsp, rfl⟩ | ⟨hsp, v, hv, rfl⟩⟩
    · refine ⟨⟨code, n⟩, hs, ?_⟩
      dsimp only
      rw [if_pos hsp]
      rfl
    · refine ⟨⟨code, n⟩, hs, ?_⟩
      dsimp only
      rw [if_neg (by simp [hsp]), hv]
      rfl

/-- Where the parts lie in the source matters to failures only. -/
theorem addParts_eq_ok {m n : Method} {left : Nat} {parts : List Text} :
    addParts m left parts = .ok n ↔ ∃ vs, Listed parts vs ∧ m.addParameters vs = .ok n := by
  induction parts generalizing m left with
  | nil =>
    rw [addParts]
    constructor
    · intro h
      cases h
      exact ⟨[], .nil, rfl⟩
    · rintro ⟨vs, hvs, h⟩
      cases hvs
      cases h
      rfl
  | cons part parts ih =>
    rw [addParts, bind_eq_ok]
    constructor
    · rintro ⟨o, ho, h⟩
      obtain ⟨code, k, hs, hcase⟩ := parameterIn_eq_ok.1 ho
      rcases hcase with ⟨hsp, rfl⟩ | ⟨hsp, v, hv, rfl⟩
      · obtain ⟨vs, hvs, h⟩ := ih.1 h
        exact ⟨vs, .blank hs hsp hvs, h⟩
      · obtain ⟨m', hm', h⟩ := bind_eq_ok.1 h
        obtain ⟨vs, hvs, h⟩ := ih.1 h
        refine ⟨v :: vs, .cons hs hsp hv hvs, ?_⟩
        rw [Method.addParameters, bind_eq_ok]
        exact ⟨m', Read.ofUnique_eq_ok.1 hm', h⟩
    · rintro ⟨vs, hvs, h⟩
      cases hvs with
      | blank hs hsp hvs =>
        exact ⟨none, parameterIn_eq_ok.2 ⟨_, _, hs, .inl ⟨hsp, rfl⟩⟩, ih.2 ⟨vs, hvs, h⟩⟩
      | @cons _ _ _ v _ vs hs hsp hv hvs =>
        rw [Method.addParameters, bind_eq_ok] at h
        obtain ⟨m', hm', h⟩ := h
        refine ⟨some v, parameterIn_eq_ok.2 ⟨_, _, hs, .inr ⟨hsp, v, hv, rfl⟩⟩, bind_eq_ok.2 ⟨m', ?_, ?_⟩⟩
        · exact Read.ofUnique_eq_ok.2 hm'
        · exact ih.2 ⟨vs, hvs, h⟩

theorem addParameterList_eq_ok {m n : Method} {list : Text} {more : Nat} :
    addParameterList m list more = .ok n ↔
      ∃ parts vs, Scan.split list = .ok parts ∧ Listed parts vs ∧ m.addParameters vs = .ok n := by
  unfold addParameterList
  rw [bind_eq_ok]
  simp only [Read.ofScan_eq_ok, addParts_eq_ok]
  constructor
  · rintro ⟨parts, hp, vs, hvs, h⟩
    exact ⟨parts, vs, hp, hvs, h⟩
  · rintro ⟨parts, vs, hp, hvs, h⟩
    exact ⟨parts, hp, vs, hvs, h⟩

theorem parameterList_inBrackets (list rest : Text) : parameterList (Scan.inBrackets list ++ rest) =
    Read.ofScan (Scan.bracketed (Scan.inBrackets list ++ rest)) := if_pos rfl

theorem parameterList_join {parts : List Text} (hparts : ∀ t ∈ parts, Scan.IsSegment t) (hne : parts ≠ [])
    (rest : Text) : parameterList (Scan.inBrackets (join (utf8 ",") parts) ++ rest) =
      .ok (Scan.inBrackets (join (utf8 ",") parts), rest) := by
  rw [parameterList_inBrackets]
  exact Read.ofScan_eq_ok.2 (Scan.bracketed_join hparts hne rest)

/-- The parameters in the parts of a list are read from the list in its brackets, each under its name. -/
theorem addParameterList_join {parts : List Text} {vs : List TypedVar} {m : Method}
    (hparts : ∀ t ∈ parts, Scan.IsSegment t) (hne : parts ≠ []) (hlisted : Listed parts vs)
    (hnames : (vs.map TypedVar.name).Nodup) (hm : m.parameters = {}) (more : Nat) :
    addParameterList m (Scan.insideBrackets (Scan.inBrackets (join (utf8 ",") parts))) more =
      .ok { m with parameters := .keyed TypedVar.name vs } := by
  rw [Scan.inBrackets, Scan.insideBrackets_cons_concat]
  refine addParameterList_eq_ok.2 ⟨parts, vs, Scan.split_join hparts hne, hlisted, ?_⟩
  refine Method.addParameters_eq_ok.2 ⟨.keyed TypedVar.name vs, rfl, ?_⟩
  rw [hm]
  exact (OrderedMap.entries_keyed hnames).trans (List.nil_append _).symm

theorem isCommentByte_of_isBlank : ∀ b, Byte.isBlank b = true → Scan.Stands.isCommentByte b = false :=
  Byte.forall_of_fin (by decide +kernel)

theorem isParameter_of_parts {ps : List (List Scan.Token)} {vs : List TypedVar}
    (hps : ∀ p ∈ ps, Scan.Lexes p [] ∧ Scan.IsPart p) (h : Listed (ps.map Scan.code) vs) :
    ∀ v ∈ vs, v.IsParameter := by
  induction ps generalizing vs with
  | nil => cases h; simp
  | cons p ps ih =>
    have hrest := fun q hq => hps q (List.mem_cons_of_mem p hq)
    obtain ⟨hlex, hpart⟩ := hps p List.mem_cons_self
    cases h with
    | blank hs hsp h => exact ih hrest h
    | cons hs hsp hv h =>
      rw [Scan.strip_code hlex, Except.ok.injEq, Scan.Stripped.mk.injEq] at hs
      have hitem := Scan.isItem_bare hlex hpart
      rw [hs.1] at hitem
      intro u hu
      rcases List.mem_cons.1 hu with rfl | hu
      · exact parameter?_eq_some hitem hv
      · exact ih hrest h u hu

/-- The parameters that are read from a bracketed list can be written. -/
theorem isParameter_of_listed {t block rest : Text} {parts : List Text} {vs : List TypedVar}
    (hb : Scan.bracketed t = .ok (block, rest)) (hp : Scan.split (Scan.insideBrackets block) = .ok parts)
    (h : Listed parts vs) : ∀ v ∈ vs, v.IsParameter := by
  obtain ⟨o, c, ks, -, rfl, -, hks, hbal⟩ := Scan.bracketed_eq_ok.1 hb
  rw [Scan.insideBrackets_cons_concat, Scan.split_code hks.alone, Except.ok.injEq] at hp
  subst hp
  refine isParameter_of_parts (fun p hp => ?_) h
  exact ⟨Scan.lexes_of_mem_parts hks hp, Scan.isPart_of_balanced hks hbal hp⟩

/-! ## Reading what is written -/

/-- What is written of a parameter, between blanks, is an item of a list. -/
theorem isItem_signature {v : TypedVar} (h : v.IsParameter) {w₁ w₂ : Text}
    (h₁ : Within Byte.isBlank w₁) (h₂ : Within Byte.isBlank w₂) :
    Scan.IsItem (w₁ ++ v.signature ++ w₂) := by
  have hblank : ∀ {w : Text}, Within Byte.isBlank w → Within Byte.isPlain w := fun hw =>
    hw.mono Byte.isPlain_of_isBlank
  have hname : Within Byte.isPlain v.name := by
    obtain ⟨reference, variadic, word, href, hvar, hword, he⟩ := h.name
    rw [he]
    simp only [within_append]
    refine ⟨⟨⟨?_, ?_⟩, by decide⟩, hword.within.mono Byte.isPlain_of_isIdent⟩
    · rcases href with rfl | rfl <;> decide
    · rcases hvar with rfl | rfl <;> decide
  have hscope : Within Byte.isPlain (v.scope.elim [] fun s => s.keyword ++ [Byte.space]) := by
    cases v.scope with
    | none => exact within_nil _
    | some s => cases s <;> decide
  have hfront : Within Byte.isPlain (w₁ ++ ((v.scope.elim [] fun s => s.keyword ++ [Byte.space]) ++
      v.type ++ [Byte.space] ++ v.name)) := by
    simp only [within_append]
    exact ⟨hblank h₁, ⟨⟨hscope, plain_of_isType h.type⟩, by decide⟩, hname⟩
  have hdef : Scan.IsItem (v.defaultText ++ w₂) := by
    unfold TypedVar.defaultText
    cases hd : v.defaultValue with
    | none => exact Scan.isItem_plain (hblank h₂)
    | some d =>
      have hcomment : Apart Scan.Stands.isCommentByte w₂ := by
        cases w₂ with
        | nil => exact apart_nil _
        | cons b w₂ => exact apart_cons.2 (isCommentByte_of_isBlank b (h₂ b List.mem_cons_self))
      have hitem := ((h.default d hd).isItem.append (Scan.isItem_plain (hblank h₂)) hcomment)
      have := hitem.plain_append (w := utf8 " = ") (by decide)
      simpa using this
  have := hdef.plain_append hfront
  simpa [TypedVar.signature] using this

theorem SpellsParameter.isSpace {Gap : Text → Prop} {v : TypedVar} {t : Text} (ht : SpellsParameter Gap v t) :
    isSpace t = false := by
  have hname : ∀ {name t : Text}, SpellsName Gap name t → ascii '$' ∈ t := by
    intro name t h
    cases h <;> simp [show utf8 "$" = [ascii '$'] by decide]
  have hdollar : ascii '$' ∈ t := by
    cases ht with
    | mk _ _ _ h _ _ _ => simp [hname h]
  cases hs : Text.isSpace t with
  | false => rfl
  | true =>
    have := within_of_isSpace hs _ hdollar
    revert this
    decide

theorem listed_signature {v : TypedVar} (h : v.IsParameter) {w₁ w₂ : Text}
    (h₁ : Within Byte.isBlank w₁) (h₂ : Within Byte.isBlank w₂) {parts : List Text}
    {vs : List TypedVar} (hl : Listed parts vs) :
    Listed ((w₁ ++ v.signature ++ w₂) :: parts) (v :: vs) :=
  .cons (Scan.strip_item (isItem_signature h h₁ h₂)) (spells_signature h h₁ h₂).isSpace
    (parameter?_signature h h₁ h₂) hl

/-- Parameters that are written on a line each are a list of items, from which they are read. -/
theorem exists_items_lines {l : Layout} (hl : l.Blank) {vs : List TypedVar} (hne : vs ≠ [])
    (hv : ∀ v ∈ vs, v.IsParameter) {front tail : Text} (hf : Within Byte.isBlank front)
    (ht : Within Byte.isBlank tail) :
    ∃ items, items ≠ [] ∧ front ++ l.render
        ((vs.map TypedVar.parameterPieces).intersperse [.word ",", .newline]).flatten ++ tail =
          join (utf8 ",") items ∧
      (∀ t ∈ items, Scan.IsItem t) ∧ Listed items vs := by
  have hindent : Within Byte.isBlank (l.piece (.indent 2)) := hl.piece_indent 2
  induction vs generalizing front with
  | nil => exact absurd rfl hne
  | cons v vs ih =>
    have hpar := hv v List.mem_cons_self
    have hfi : Within Byte.isBlank (front ++ l.piece (.indent 2)) := within_append.2 ⟨hf, hindent⟩
    cases vs with
    | nil =>
      refine ⟨[front ++ l.piece (.indent 2) ++ v.signature ++ tail], by simp, ?_, ?_, ?_⟩
      · simp [TypedVar.render_parameterPieces, join]
      · intro t hmem
        rw [List.mem_singleton.1 hmem]
        exact isItem_signature hpar hfi ht
      · exact listed_signature hpar hfi ht .nil
    | cons u us =>
      obtain ⟨items, hitems, hjoin, hall, hlist⟩ := ih (by simp)
        (fun x hx => hv x (List.mem_cons_of_mem _ hx)) hl.newline
      obtain ⟨i, is, rfl⟩ := List.exists_cons_of_ne_nil hitems
      refine ⟨(front ++ l.piece (.indent 2) ++ v.signature ++ []) :: i :: is, by simp, ?_, ?_, ?_⟩
      · rw [join_cons_cons, ← hjoin]
        simp [TypedVar.render_parameterPieces]
      · intro t hmem
        rcases List.mem_cons.1 hmem with rfl | hmem
        · exact isItem_signature hpar hfi (within_nil _)
        · exact hall t hmem
      · exact listed_signature hpar hfi (within_nil _) hlist

/-- The parameters of a method as they are written: a list of items, from which they are read. -/
theorem exists_items {l : Layout} (hl : l.Blank) {m : Method}
    (hv : ∀ v ∈ m.parameters.values, v.IsParameter) :
    ∃ items, items ≠ [] ∧ l.render m.parameterPieces = join (utf8 ",") items ∧
      (∀ t ∈ items, Scan.IsItem t) ∧ Listed items m.parameters.values := by
  unfold Method.parameterPieces
  split
  · next he =>
    have hnil : m.parameters.values = [] := by
      simpa [OrderedMap.isEmpty, OrderedMap.values] using he
    refine ⟨[[]], by simp, rfl, ?_, ?_⟩
    · intro t ht
      rw [List.mem_singleton.1 ht]
      exact Scan.isItem_plain (within_nil _)
    · rw [hnil]
      exact .blank (n := 0) rfl rfl .nil
  · next he =>
    have hne : m.parameters.values ≠ [] := by
      simpa [OrderedMap.isEmpty, OrderedMap.values] using he
    have htail : Within Byte.isBlank (l.newline ++ l.piece (.indent 1)) :=
      within_append.2 ⟨hl.newline, hl.piece_indent 1⟩
    obtain ⟨items, hitems, hjoin, hall, hlist⟩ := exists_items_lines hl hne hv hl.newline htail
    refine ⟨items, hitems, ?_, hall, hlist⟩
    rw [← hjoin]
    simp

end Grammar

end PhpClass
