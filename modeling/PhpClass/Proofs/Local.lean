import PhpClass.Proofs.ParameterList

/-!
# Reading a declaration is local

A declaration ends in `;` or `}`, and no reader looks beyond that byte. Two texts that agree up to such a
byte (`Agree`) are read alike: what a reader takes from the front of the one it takes from the other too,
if what is left of them agrees (`GoesOn`). From the readers of words and gaps this goes up to those of
properties, constants, methods and uses of traits (`property_local`, `constant_local`, `method_local`,
`traitUse_local`), together with what is read there.
-/

namespace PhpClass

open Text

/-- The last byte of a declaration. -/
def Byte.isEnd (b : UInt8) : Bool := b == ascii ';' || b == Byte.closeBrace

theorem Byte.isEnd_spec : ∀ b, Byte.isEnd b = true → Byte.isStop b = true ∧ b ≠ ascii '/' :=
  Byte.forall_of_fin (by decide +kernel)

namespace Text

/-- The two texts are the same up to the end of a declaration. -/
def Agree (t t' : Text) : Prop :=
  ∃ s c rest rest', Byte.isEnd c = true ∧ t = s ++ c :: rest ∧ t' = s ++ c :: rest'

theorem agree_end {c : UInt8} (hc : Byte.isEnd c = true) (rest rest' : Text) :
    Agree (c :: rest) (c :: rest') := ⟨[], c, rest, rest', hc, rfl, rfl⟩

namespace Agree

variable {t t' : Text}

theorem append (h : Agree t t') (s : Text) : Agree (s ++ t) (s ++ t') := by
  obtain ⟨u, c, rest, rest', hc, rfl, rfl⟩ := h
  exact ⟨s ++ u, c, rest, rest', hc, by simp, by simp⟩

theorem cons (h : Agree t t') (b : UInt8) : Agree (b :: t) (b :: t') := h.append [b]

theorem head?_eq (h : Agree t t') : t.head? = t'.head? := by
  obtain ⟨u, c, rest, rest', -, rfl, rfl⟩ := h
  cases u <;> rfl

theorem apart (h : Agree t t') {p : UInt8 → Bool} (ht : Apart p t) : Apart p t' := by
  unfold Apart at ht ⊢
  rwa [← h.head?_eq]

theorem gapEnd (h : Agree t t') (ht : Scan.GapEnd t) : Scan.GapEnd t' := by
  obtain ⟨u, c, rest, rest', hc, rfl, rfl⟩ := h
  exact ht.stop (Byte.isEnd_spec c hc).2 rest'

theorem ne_nil (h : Agree t t') : t ≠ [] := by
  obtain ⟨s, c, rest, rest', -, rfl, -⟩ := h
  simp

/-- What stands in front of texts that agree does not matter. -/
theorem of_append {p u r : Text} (h : Agree u r) (ht : t = p ++ u) : Agree t (p ++ r) := ht ▸ h.append p

theorem after?_eq_none (h : Agree t t') {front : Text} (hfront : Within (fun b => !Byte.isEnd b) front)
    (hn : after? front t = none) : after? front t' = none := by
  obtain ⟨s, c, rest, rest', hc, rfl, rfl⟩ := h
  have hmem : c ∉ front := by
    intro hm
    simpa [hc] using hfront c hm
  rw [after?_append_stop hmem, Option.map_eq_none_iff] at hn ⊢
  exact hn

theorem keyword?_eq_none (h : Agree t t') {word : Text} (hword : Within Byte.isIdent word)
    (hn : keyword? word t = none) : keyword? word t' = none := by
  obtain ⟨s, c, rest, rest', hc, rfl, rfl⟩ := h
  have hident : Byte.isIdent c = false := (Byte.isStop_spec c (Byte.isEnd_spec c hc).1).2.2.1
  rw [keyword?_append_stop hword hident, Option.map_eq_none_iff] at hn ⊢
  exact hn

end Agree

/-- Behind what it reads of `t` the reader `f` goes on as `g` does from `u`, and it does so with each text in
the place of `u` that agrees with `u`. -/
def GoesOn {ρ : Type} (f : Text → ρ) (t : Text) (g : Text → ρ) (u : Text) : Prop :=
  ∃ p, t = p ++ u ∧ ∀ r, Agree u r → f (p ++ r) = g r

namespace GoesOn

variable {ρ σ : Type} {t u rest : Text}

theorem refl (f : Text → ρ) (t : Text) : GoesOn f t f t := ⟨[], rfl, fun _ _ => rfl⟩

theorem trans {f g out : Text → ρ} (hf : GoesOn f t g u) (hg : GoesOn g u out rest) : GoesOn f t out rest := by
  obtain ⟨p, rfl, hp⟩ := hf
  obtain ⟨q, rfl, hq⟩ := hg
  refine ⟨p ++ q, (List.append_assoc ..).symm, ?_⟩
  intro r hr
  rw [List.append_assoc, hp _ (hr.append q)]
  exact hq r hr

theorem map {f g : Text → ρ} (hf : GoesOn f t g u) (k : ρ → σ) :
    GoesOn (fun t => k (f t)) t (fun r => k (g r)) u := by
  obtain ⟨p, ht, hp⟩ := hf
  exact ⟨p, ht, fun r hr => congrArg k (hp r hr)⟩

/-- One reader after another. -/
theorem bind {ε : Type} {f : Text → Except ε ρ} {a : Text → ρ} {k : ρ → Except ε σ}
    {out : Text → Except ε σ} (hf : GoesOn f t (fun r => .ok (a r)) u)
    (hk : GoesOn (fun r => k (a r)) u out rest) : GoesOn (fun t => f t >>= k) t out rest :=
  (hf.map (· >>= k)).trans hk

/-- A reader of a text up to its last byte does not look at what follows. -/
theorem of_last {f g : Text → ρ} {s : Text} {c : UInt8} (h : ∀ more, f (s ++ c :: more) = g more)
    (rest : Text) : GoesOn f (s ++ c :: rest) g rest := by
  refine ⟨s ++ [c], by simp, ?_⟩
  intro r _
  rw [List.append_assoc]
  exact h r

end GoesOn

end Text

namespace Grammar

variable {t w rest : Text}

/-! ## Words and gaps -/

theorem skipBlanks_local (t : Text) : GoesOn skipBlanks t id (skipBlanks t) := by
  obtain ⟨p, ht, hp, hap⟩ := exists_blanks t
  exact ⟨p, ht, fun r hr => skipBlanks_append hp (hr.apart hap)⟩

theorem ident_local {what : Expected} (h : ident what t = .ok (w, rest)) :
    IsIdent w ∧ t = w ++ rest ∧ ∀ r, Agree rest r → ident what (w ++ r) = .ok (w, r) := by
  obtain ⟨rfl, hw, hap⟩ := ident_eq_ok h
  exact ⟨hw, rfl, fun r hr => ident_of_isIdent _ hw (hr.apart hap)⟩

/-- An identifier behind blanks. -/
theorem ident_skipBlanks_local {what : Expected} (h : ident what (skipBlanks t) = .ok (w, rest)) :
    IsIdent w ∧ GoesOn (fun t => ident what (skipBlanks t)) t (fun r => .ok (w, r)) rest := by
  obtain ⟨hw, hs, hi⟩ := ident_local h
  exact ⟨hw, ((skipBlanks_local t).map (ident what)).trans ⟨w, hs, hi⟩⟩

theorem gap_local {acc : Text} (h : Scan.gap t = .ok (acc, rest)) :
    GoesOn Scan.gap t (fun r => .ok (acc, r)) rest := by
  obtain ⟨hend, hgap⟩ := Scan.gap_eq_ok h
  by_cases hne : rest = []
  · -- Nothing agrees with an empty rest.
    subst hne
    exact ⟨t, (List.append_nil t).symm, fun r hr => absurd rfl hr.ne_nil⟩
  · obtain ⟨g, cs, rfl, hg, rfl⟩ := hgap hne
    exact ⟨g, rfl, fun r hr => Scan.gap_append hg (hr.gapEnd hend)⟩

/-! ## Properties -/

theorem propertyEnd_local {d : Option Text} (h : propertyEnd t = .ok (d, rest)) :
    (∀ v ∈ d, Scan.IsStatement true v) ∧
      ∃ s, t = s ++ ascii ';' :: rest ∧ ∀ more, propertyEnd (s ++ ascii ';' :: more) = .ok (d, more) := by
  unfold propertyEnd at h
  split at h
  · cases h
  · next b t =>
    split at h
    · next hb =>
      obtain ⟨⟨v, r⟩, hs, h⟩ := bind_eq_ok.1 h
      cases h
      obtain ⟨hv, s, rfl, hmore⟩ := statement_eq_ok hs
      refine ⟨by simpa using hv, b :: s, rfl, fun more => ?_⟩
      rw [List.cons_append, propertyEnd, if_pos hb]
      exact bind_eq_ok.2 ⟨(v, more), hmore more, rfl⟩
    · split at h
      · next hb hs =>
        cases h
        refine ⟨by simp, [], by simp [hs], fun more => ?_⟩
        rw [List.nil_append, propertyEnd, if_neg (by decide), if_pos rfl]
      · cases h

theorem property_local {ms : Modifiers} {type : Text} {v : TypedVar}
    (h : property ms type t = .ok (v, rest)) :
    (∃ word, IsIdent word ∧ v = ⟨utf8 "$" ++ word, typeOrMixed type, v.defaultValue,
        some (ms.scope.getD .pub), ms.isStatic⟩) ∧
      (∀ d ∈ v.defaultValue, Scan.IsStatement true d) ∧
      ∃ s, t = s ++ ascii ';' :: rest ∧
        ∀ more, property ms type (s ++ ascii ';' :: more) = .ok (v, more) := by
  obtain ⟨⟨word, r₁⟩, hi, h⟩ := bind_eq_ok.1 h
  obtain ⟨⟨d, r₂⟩, he, h⟩ := bind_eq_ok.1 h
  cases h
  obtain ⟨hword, rfl, hident⟩ := ident_local hi
  obtain ⟨p, hp, hskip⟩ := skipBlanks_local r₁
  obtain ⟨hd, s, hs, hend⟩ := propertyEnd_local he
  refine ⟨⟨word, hword, rfl⟩, hd, word ++ p ++ s, ?_, fun more => ?_⟩
  · rw [List.append_assoc, List.append_assoc, ← hs, ← hp]
  · have hagree : Agree (s ++ ascii ';' :: rest) (s ++ ascii ';' :: more) :=
      (agree_end (by decide) rest more).append s
    have hskip := hskip (s ++ ascii ';' :: more) (hs ▸ hagree)
    rw [List.append_assoc, List.append_assoc]
    refine bind_eq_ok.2 ⟨(word, p ++ (s ++ ascii ';' :: more)), hident _ ?_, ?_⟩
    · rw [hp, hs]
      exact hagree.append p
    · refine bind_eq_ok.2 ⟨(d, more), ?_, rfl⟩
      rw [hskip]
      exact hend more

/-! ## Constants -/

theorem equals_eq_ok (h : equals t = .ok rest) : t = ascii '=' :: rest := by
  unfold equals at h
  split at h
  · next hr => cases h; exact after?_eq_some.1 hr
  · cases h

theorem equals_cons (t : Text) : equals (ascii '=' :: t) = .ok t := by
  unfold equals
  rw [show ascii '=' :: t = utf8 "=" ++ t from rfl, after?_append]

theorem constant_local {ms : Modifiers} {c : Constant} (h : constant ms t = .ok (c, rest)) :
    IsIdent c.name ∧ Scan.IsStatement true c.value ∧ c.scope = ms.scope.getD .pub ∧
      ∃ s, t = s ++ ascii ';' :: rest ∧ ∀ more, constant ms (s ++ ascii ';' :: more) = .ok (c, more) := by
  obtain ⟨⟨name, r₁⟩, hi, h⟩ := bind_eq_ok.1 h
  obtain ⟨r₂, he, h⟩ := bind_eq_ok.1 h
  obtain ⟨⟨value, r₃⟩, hv, h⟩ := bind_eq_ok.1 h
  cases h
  obtain ⟨hname, p₁, rfl, hident⟩ := ident_skipBlanks_local hi
  obtain ⟨p₂, hp₂, hskip⟩ := skipBlanks_local r₁
  have heq := equals_eq_ok he
  obtain ⟨hvalue, s, rfl, hstmt⟩ := statement_eq_ok hv
  refine ⟨hname, hvalue, rfl, p₁ ++ (p₂ ++ ascii '=' :: s), ?_, fun more => ?_⟩
  · rw [hp₂, heq]
    simp
  · have hagree : Agree (ascii '=' :: (s ++ ascii ';' :: rest)) (ascii '=' :: (s ++ ascii ';' :: more)) :=
      ((agree_end (by decide) rest more).append s).cons _
    have hskip := hskip _ (heq ▸ hagree)
    have ht : p₁ ++ (p₂ ++ ascii '=' :: s) ++ ascii ';' :: more =
        p₁ ++ (p₂ ++ ascii '=' :: (s ++ ascii ';' :: more)) := by simp
    rw [ht]
    refine bind_eq_ok.2 ⟨(name, _), hident _ (by rw [hp₂, heq]; exact hagree.append p₂), ?_⟩
    refine bind_eq_ok.2 ⟨_, by rw [hskip]; exact equals_cons _, ?_⟩
    exact bind_eq_ok.2 ⟨(value, more), hstmt more, rfl⟩

/-! ## Uses of traits -/

theorem traitUse_local {name : Text} (h : traitUse t = .ok (name, rest)) :
    Scan.IsStatement false name ∧ Byte.openBrace ∉ name ∧
      ∃ s, t = s ++ ascii ';' :: rest ∧ ∀ more, traitUse (s ++ ascii ';' :: more) = .ok (name, more) := by
  obtain ⟨⟨v, r⟩, hs, h⟩ := bind_eq_ok.1 h
  dsimp only at h
  split at h
  · cases h
  · next hb =>
    cases h
    obtain ⟨hv, s, rfl, hmore⟩ := statement_eq_ok hs
    refine ⟨hv, by simpa using hb, s, rfl, fun more => ?_⟩
    refine bind_eq_ok.2 ⟨(name, more), hmore more, ?_⟩
    dsimp only
    rw [if_neg hb]
    rfl

end Grammar

/-! ## Methods -/

/-- A return type as it stands behind its `:`. -/
structure IsReturnType (t : Text) : Prop where
  ne_nil : t ≠ []
  trim : trim t = t
  within : Within (fun b => !Grammar.endsReturnType b) t

/-- A body with its braces, or none. -/
def IsBody (t : Text) : Prop :=
  t = [] ∨ (t.head? = some Byte.openBrace ∧ Scan.bracketed t = .ok (t, []))

/-- A method that can be written. -/
structure Method.Writable (m : Method) : Prop where
  name : IsIdent m.name
  parameters : ∀ v ∈ m.parameters.values, v.IsParameter
  names : (m.parameters.values.map TypedVar.name).Nodup
  returnType : ∀ t ∈ m.returnType, IsReturnType t
  body : IsBody m.body

namespace Grammar

variable {t rest : Text}

theorem parameterList_local {list : Text} (h : parameterList t = .ok (list, rest)) :
    Scan.bracketed t = .ok (list, rest) ∧ t = list ++ rest ∧
      ∀ more, parameterList (list ++ more) = .ok (list, more) := by
  unfold parameterList at h
  split at h
  · next hh =>
    have hb := Read.ofScan_eq_ok.1 h
    have ht := Scan.bracketed_eq_append hb
    refine ⟨hb, ht, fun more => ?_⟩
    obtain ⟨o, c, ks, -, rfl, -, -, -⟩ := Scan.bracketed_eq_ok.1 hb
    rw [ht] at hh
    unfold parameterList
    rw [if_pos (by simpa using hh)]
    exact Read.ofScan_eq_ok.2 (Scan.bracketed_append hb more)
  · cases h

/-- A list of parameters behind blanks. -/
theorem parameterList_skipBlanks_local {list : Text}
    (h : parameterList (skipBlanks t) = .ok (list, rest)) :
    Scan.bracketed (skipBlanks t) = .ok (list, rest) ∧
      GoesOn (fun t => parameterList (skipBlanks t)) t (fun r => .ok (list, r)) rest := by
  obtain ⟨hb, hs, hmore⟩ := parameterList_local h
  exact ⟨hb, ((skipBlanks_local t).map parameterList).trans ⟨list, hs, fun r _ => hmore r⟩⟩

theorem typeName_eq_ok {type : Text} (h : typeName t = .ok (type, rest)) :
    IsReturnType type ∧ ∃ text, t = text ++ rest ∧ Within (fun b => !endsReturnType b) text ∧
      visible? text = some type ∧ Apart (fun b => !endsReturnType b) rest := by
  unfold typeName at h
  rcases hs : splitWhile (fun b => !endsReturnType b) t with ⟨text, r⟩
  rw [hs] at h
  dsimp only at h
  split at h
  · next v hv =>
    cases h
    obtain ⟨rfl, hw, hap⟩ := splitWhile_eq hs
    refine ⟨?_, text, rfl, hw, hv, hap⟩
    obtain ⟨rfl, hne⟩ := visible?_eq_some.1 hv
    refine ⟨hne, trim_trim text, ?_⟩
    obtain ⟨w₁, w₂, ht, -, -⟩ := exists_trim text
    rw [ht, within_append, within_append] at hw
    exact hw.1.2
  · cases h

theorem typeName_append {text type : Text} (hw : Within (fun b => !endsReturnType b) text)
    (hv : visible? text = some type) (hr : Apart (fun b => !endsReturnType b) rest) :
    typeName (text ++ rest) = .ok (type, rest) := by
  unfold typeName
  rw [splitWhile_append hw hr]
  dsimp only
  rw [hv]

theorem typeName_local {type : Text} (h : typeName t = .ok (type, rest)) :
    IsReturnType type ∧ GoesOn typeName t (fun r => .ok (type, r)) rest := by
  obtain ⟨htype, text, rfl, hw, hv, hap⟩ := typeName_eq_ok h
  exact ⟨htype, text, rfl, fun r hr => typeName_append hw hv (hr.apart hap)⟩

theorem after?_singleton {b : UInt8} : after? [b] t = none ↔ t.head? ≠ some b := by
  cases t with
  | nil => simp [after?]
  | cons c t => simp [after?, eq_comm]

theorem returnType_local {o : Option Text} {comments : Text}
    (h : returnType t = .ok (o, comments, rest)) :
    (∀ type ∈ o, IsReturnType type) ∧
      GoesOn returnType t (fun r => .ok (o, comments, r)) rest := by
  unfold returnType at h
  split at h
  · next hn =>
    cases h
    refine ⟨by simp, [], rfl, fun r hr => ?_⟩
    have hcolon : after? (utf8 ":") r = none := after?_singleton.2 (hr.head?_eq ▸ after?_singleton.1 hn)
    unfold returnType
    rw [List.nil_append, hcolon]
  · next r₁ hr₁ =>
    obtain ⟨⟨before, r₂⟩, hg, h⟩ := bind_eq_ok.1 h
    obtain ⟨⟨type, r₃⟩, ht, h⟩ := bind_eq_ok.1 h
    obtain ⟨⟨behind, r₄⟩, hg', h⟩ := bind_eq_ok.1 h
    cases h
    obtain ⟨p₃, rfl, hlocal₃⟩ := gap_local (Read.ofScan_eq_ok.1 hg')
    obtain ⟨htype, p₂, rfl, hlocal₂⟩ := typeName_local ht
    obtain ⟨p₁, rfl, hlocal₁⟩ := gap_local (Read.ofScan_eq_ok.1 hg)
    refine ⟨by simpa using htype, utf8 ":" ++ (p₁ ++ (p₂ ++ p₃)), ?_, fun r hr => ?_⟩
    · rw [after?_eq_some.1 hr₁]
      simp
    · have ht : utf8 ":" ++ (p₁ ++ (p₂ ++ p₃)) ++ r = utf8 ":" ++ (p₁ ++ (p₂ ++ (p₃ ++ r))) := by simp
      unfold returnType
      rw [ht, after?_append]
      dsimp only
      refine bind_eq_ok.2 ⟨_, Read.ofScan_eq_ok.2 (hlocal₁ _ ((hr.append p₃).append p₂)), ?_⟩
      refine bind_eq_ok.2 ⟨_, hlocal₂ _ (hr.append p₃), ?_⟩
      exact bind_eq_ok.2 ⟨_, Read.ofScan_eq_ok.2 (hlocal₃ r hr), rfl⟩

theorem methodBody_local {body : Text} (h : methodBody t = .ok (body, rest)) :
    IsBody body ∧ ∃ s c, Byte.isEnd c = true ∧ t = s ++ c :: rest ∧
      ∀ more, methodBody (s ++ c :: more) = .ok (body, more) := by
  unfold methodBody at h
  split at h
  · cases h
  · next b t =>
    split at h
    · next hb =>
      have hbr := Read.ofScan_eq_ok.1 h
      have ht := Scan.bracketed_eq_append hbr
      obtain ⟨o, c, ks, hoc, rfl, -, -, -⟩ := Scan.bracketed_eq_ok.1 hbr
      obtain ⟨rfl, -⟩ := List.cons.inj ht
      have hc : c = Byte.closeBrace := by
        rw [hb] at hoc
        exact (Option.some.inj hoc).symm
      have hself := Scan.bracketed_append hbr []
      rw [List.append_nil] at hself
      refine ⟨.inr ⟨by simp [hb], hself⟩, b :: Scan.code ks, c, by rw [hc]; decide, by simpa using ht, ?_⟩
      intro more
      have hmore := Scan.bracketed_append hbr more
      rw [List.cons_append, methodBody, if_pos hb]
      exact Read.ofScan_eq_ok.2 (by simpa using hmore)
    · split at h
      · next hb hs =>
        cases h
        refine ⟨.inl rfl, [], b, by rw [hs]; decide, rfl, fun more => ?_⟩
        rw [List.nil_append, methodBody, if_neg hb, if_pos hs]
      · cases h

theorem method_local {ms : Modifiers} {m : Method} {c : Option Text}
    (h : method ms t = .ok ((m, c), rest)) :
    m.Writable ∧ m.parameters.keys = m.parameters.values.map TypedVar.name ∧
      (∀ x ∈ c, Comment.IsShown x) ∧
      ∃ s e, Byte.isEnd e = true ∧ t = s ++ e :: rest ∧
        ∀ more, method ms (s ++ e :: more) = .ok ((m, c), more) := by
  obtain ⟨⟨name, r₁⟩, hi, h⟩ := bind_eq_ok.1 h
  obtain ⟨⟨list, r₂⟩, hl, h⟩ := bind_eq_ok.1 h
  obtain ⟨m₀, hm₀, h⟩ := bind_eq_ok.1 h
  obtain ⟨⟨before, r₃⟩, hg, h⟩ := bind_eq_ok.1 h
  obtain ⟨⟨type, around, r₄⟩, hr, h⟩ := bind_eq_ok.1 h
  obtain ⟨⟨body, r₅⟩, hb, h⟩ := bind_eq_ok.1 h
  cases h
  obtain ⟨hbody, s, e, he, rfl, hlocal₅⟩ := methodBody_local hb
  obtain ⟨htype, p₄, rfl, hlocal₄⟩ := returnType_local hr
  obtain ⟨p₃, rfl, hlocal₃⟩ := gap_local (Read.ofScan_eq_ok.1 hg)
  obtain ⟨hbr, p₂, rfl, hlocal₂⟩ := parameterList_skipBlanks_local hl
  obtain ⟨hname, p₁, rfl, hlocal₁⟩ := ident_skipBlanks_local hi
  obtain ⟨parts, vs, hparts, hvs, hadd⟩ := addParameterList_eq_ok.1 hm₀
  obtain ⟨ps, rfl, hps⟩ := Method.addParameters_eq_ok.1 hadd
  have hps : ps.entries = vs.map fun v => (v.name, v) := hps.trans (List.nil_append _)
  have hvalues : ps.values = vs := by simp [OrderedMap.values, hps, Function.comp_def]
  have hkeys : ps.keys = vs.map TypedVar.name := by simp [OrderedMap.keys, hps, Function.comp_def]
  refine ⟨⟨hname, ?_, ?_, htype, hbody⟩, ?_, ?_, p₁ ++ (p₂ ++ (p₃ ++ (p₄ ++ s))), e, he, by simp, ?_⟩
  · show ∀ v ∈ ps.values, v.IsParameter
    rw [hvalues]
    exact isParameter_of_listed hbr hparts hvs
  · show (ps.values.map TypedVar.name).Nodup
    rw [hvalues, ← hkeys]
    exact ps.nodup_keys
  · show ps.keys = ps.values.map TypedVar.name
    rw [hvalues, hkeys]
  · intro x hx
    obtain ⟨y, hy, rfl⟩ := Option.map_eq_some_iff.1 hx
    have hvisible : trim y ≠ [] := by
      rw [Ne, trim_eq_nil_iff, Scan.commentText?_isSpace hy]
      simp
    exact Comment.isShown_oneLine (trim_trim y) hvisible
  · intro more
    have hagree : Agree (s ++ e :: rest) (s ++ e :: more) := (agree_end he rest more).append s
    have ht : p₁ ++ (p₂ ++ (p₃ ++ (p₄ ++ s))) ++ e :: more =
        p₁ ++ (p₂ ++ (p₃ ++ (p₄ ++ (s ++ e :: more)))) := by simp
    rw [ht]
    have hagree₄ := hagree.append p₄
    have hagree₃ := hagree₄.append p₃
    refine bind_eq_ok.2 ⟨_, hlocal₁ _ (hagree₃.append p₂), ?_⟩
    refine bind_eq_ok.2 ⟨_, hlocal₂ _ hagree₃, ?_⟩
    refine bind_eq_ok.2 ⟨_, addParameterList_eq_ok.2 ⟨parts, vs, hparts, hvs, hadd⟩, ?_⟩
    refine bind_eq_ok.2 ⟨_, Read.ofScan_eq_ok.2 (hlocal₃ _ hagree₄), ?_⟩
    refine bind_eq_ok.2 ⟨_, hlocal₄ _ hagree, ?_⟩
    exact bind_eq_ok.2 ⟨_, hlocal₅ more, rfl⟩

end Grammar

end PhpClass
