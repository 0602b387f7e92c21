import PhpClass.Proofs.Account
import PhpClass.Proofs.DeclarationText

/-!
# Initializers

The value of a constant and the default of a property are the code up to the first `;` outside brackets. The
search for this `;` passes over strings, but what stands in a comment counts as code. So an initializer is
read whole exactly if the search comes to its end, and it does if every comment is complete as code
(`Member.reads_initializer_iff`).

Behind an initializer a `;` is written. A line comment at the end of the initializer goes on over this `;`,
and nothing else hides it (`Member.semicolon_visible_iff`).
-/

namespace PhpClass

open Text

namespace Scan

/-! ## Code in front of a semicolon -/

/-- The end of a statement. -/
def semicolon : Token := ⟨.byte, [ascii ';']⟩

instance (ks : List Token) : Decidable (Balanced ks) := inferInstanceAs (Decidable (_ = _))

/-- Tokens that make up the code between a `=` and a `;`: strings and comments are complete, brackets are
paired, and no `;` stands outside of all of them. -/
structure IsInitializer (ks : List Token) : Prop where
  /-- The tokens stay what they are in front of a `;`, so the last one is no line comment. -/
  lexes : Lexes ks [ascii ';']
  balanced : Balanced ks
  whole : ∀ js ms, ks = js ++ semicolon :: ms → js.foldl (fun depth k => k.nest depth) 0 ≠ 0
  ne_nil : code ks ≠ []
  trim : Text.trim (code ks) = code ks

theorem whole_of_not_mem {ks : List Token} (h : semicolon ∉ ks) (js ms : List Token)
    (he : ks = js ++ semicolon :: ms) : js.foldl (fun depth k => k.nest depth) 0 ≠ 0 := by
  subst he
  simp at h

/-- With so many brackets open, each comment is passed over as if it were code. -/
def Transparent (depth : Nat) : List Token → Prop
  | [] => True
  | k :: ks =>
    (k.kind = .comment → Passes true (ascii ';') k.text depth depth) ∧ Transparent (k.nest depth) ks

/-- A search passes over a token if the token is no `;` outside brackets and, as a comment, is transparent. -/
theorem passes_token {k : Token} {rest : Text} {depth : Nat} (hk : Stands k rest)
    (hs : k = semicolon → depth ≠ 0)
    (hc : k.kind = .comment → Passes true (ascii ';') k.text depth depth) :
    Passes true (ascii ';') k.text depth (k.nest depth) := by
  cases hk with
  | @quoted q _ _ hq hend =>
    have hquoted : (true && Byte.isQuote q) = true := by rwa [Bool.true_and]
    have hpasses : Passes true (ascii ';') (q :: (_ ++ [])) depth depth := .quoted hquoted hend .nil
    rwa [List.append_nil] at hpasses
  | block | line => exact hc rfl
  | @byte b _ hq _ =>
    refine .byte (by simp [hq]) ?_ .nil
    rintro ⟨rfl, rfl⟩
    exact hs rfl rfl

theorem passes_code {ks : List Token} {rest : Text} {depth : Nat} (h : Lexes ks rest)
    (hw : ∀ js ms, ks = js ++ semicolon :: ms → js.foldl (fun depth k => k.nest depth) depth ≠ 0)
    (ht : Transparent depth ks) :
    Passes true (ascii ';') (code ks) depth (ks.foldl (fun depth k => k.nest depth) depth) := by
  induction ks generalizing depth with
  | nil => exact .nil
  | cons k ks ih =>
    have hk := passes_token h.1 (fun hk => hw [] ks (by rw [hk]; rfl)) ht.1
    refine hk.append (ih h.2 (fun js ms he => ?_) ht.2)
    exact hw (k :: js) ms (by rw [he]; rfl)

/-- An initializer whose comments are transparent is a statement. -/
theorem IsInitializer.isStatement {ks : List Token} (h : IsInitializer ks) (ht : Transparent 0 ks) :
    IsStatement true (code ks) := by
  have hp := passes_code h.lexes h.whole ht
  have hdepth : ks.foldl (fun depth k => k.nest depth) 0 = 0 := foldl_nest_of_owe h.lexes h.balanced
  rw [hdepth] at hp
  exact isStatement_of_passes hp h.ne_nil h.trim

end Scan

namespace Member

/-- The value of a constant or the default of a property. -/
def initializer? : Member → Option Text
  | constant e => some e.payload.value
  | property e => e.payload.defaultValue
  | method _ | traitUse _ => none

theorem writable_of_parse {t : Text} {m : Member} (h : Member.parse t = .ok m) : m.Writable := by
  obtain ⟨⟨c, r⟩, hc, h⟩ := bind_eq_ok.1 (mapError_eq_ok.1 h)
  obtain ⟨⟨m', rest⟩, hm, h⟩ := bind_eq_ok.1 h
  obtain ⟨⟨c', last⟩, -, h⟩ := bind_eq_ok.1 h
  dsimp only at h
  split at h
  · cases h
    have hne : r ≠ [] := by
      rintro rfl
      exact absurd (Grammar.member_length hm) (Nat.not_lt_zero _)
    obtain ⟨s, alone, more, -, -, hwritable, -, rfl, -⟩ :=
      Grammar.member_eq_ok (Grammar.exists_gap hc hne).1 hm
    exact writable_attach.2 hwritable
  · cases h

/-- An initializer that is read is a statement. -/
theorem isStatement_initializer {m : Member} (h : m.Writable) {v : Text} (hv : m.initializer? = some v) :
    Scan.IsStatement true v := by
  cases m with
  | constant e => cases hv; exact h.2
  | property e => exact h.default v hv
  | method e | traitUse e => cases hv

end Member

namespace Grammar

/-- A declaration with an initializer begins with what stands in front of its `=`. -/
theorem append_equals {w u : Text} (h : w = u ++ [ascii '=', Byte.space]) (v : Text) :
    w ++ v ++ utf8 ";" = u ++ ascii '=' :: Byte.space :: (v ++ [ascii ';']) := by
  rw [h, show utf8 ";" = [ascii ';'] by decide]
  simp

theorem declares_const {v : Text} (hv : Scan.IsStatement true v) :
    Declares (utf8 "const A = " ++ v ++ utf8 ";") (.constant ⟨⟨utf8 "A", v, .pub⟩, none, none⟩) := by
  rw [append_equals (w := utf8 "const A = ") (u := utf8 "const A ") (by decide)]
  refine declares_text (utf8 " A = " ++ v) (ascii ';') (.constant {})
    (Scan.gapEnd_name (w := utf8 "const") (by decide) _) (by decide) ?_ rfl ?_
  · have hhead : head? (utf8 "const A ") = some (.constant {}, utf8 " A ") := by decide +kernel
    rw [head?_append_stop (by decide), hhead]
    simp [show utf8 " A = " = utf8 " A " ++ [ascii '=', Byte.space] by decide]
  · intro before more
    have hname : IsIdent (utf8 "A") := by decide
    have hread := constant_append (c := ⟨utf8 "A", v, .pub⟩) hname hv more
    -- A constant without a scope is public.
    have hscope : ∀ t, constant {} t = constant { scope := some .pub } t := fun _ => rfl
    refine bind_eq_ok.2 ⟨(⟨utf8 "A", v, .pub⟩, more), ?_, rfl⟩
    rw [hscope, show utf8 " A = " = Byte.space :: (utf8 "A" ++ utf8 " = ") by decide]
    simpa using hread

theorem declares_public {v : Text} (hv : Scan.IsStatement true v) :
    Declares (utf8 "public $p = " ++ v ++ utf8 ";")
      (.property ⟨{ name := utf8 "$p", defaultValue := some v, scope := some .pub }, none, none⟩) := by
  have hhead : head? (utf8 "public $p ") = some (.property { scope := some .pub } [], utf8 "p ") := by
    decide +kernel
  rw [append_equals (w := utf8 "public $p = ") (u := utf8 "public $p ") (by decide)]
  refine declares_text (utf8 "p = " ++ v) (ascii ';') (.property { scope := some .pub } [])
    (Scan.gapEnd_name (w := utf8 "public") (by decide) _) (by decide) ?_ rfl ?_
  · rw [head?_append_stop (by decide), hhead]
    simp [show utf8 "p = " = utf8 "p " ++ [ascii '=', Byte.space] by decide]
  · intro before more
    have hword : IsIdent (utf8 "p") := by decide
    have hproperty : TypedVar.IsProperty { name := utf8 "$p", defaultValue := some v, scope := some .pub } :=
      ⟨⟨utf8 "p", hword, rfl⟩, rfl, head?_eq_property hhead, by simpa using hv⟩
    have hread := property_append hproperty hword rfl more
    -- A property without a type is of the general one.
    have htype : ∀ t, property { scope := some .pub } [] t = property { scope := some .pub } mixed t :=
      fun _ => rfl
    refine bind_eq_ok.2 ⟨({ name := utf8 "$p", defaultValue := some v, scope := some .pub }, more), ?_, rfl⟩
    rw [htype, show utf8 "p = " = utf8 "p" ++ utf8 " = " by decide]
    simpa [TypedVar.defaultText, TypedVar.effectiveScope] using hread

end Grammar

namespace Member

/-- **When an initializer is read whole.** A constant and a property with an initializer are read with this
initializer exactly if a search for `;` that takes comments for code comes to its end, and it does if every
comment of the initializer is transparent. -/
theorem reads_initializer_iff {ks : List Scan.Token} (h : Scan.IsInitializer ks) :
    (Member.parse (utf8 "const A = " ++ Scan.code ks ++ utf8 ";") =
        .ok (.constant ⟨⟨utf8 "A", Scan.code ks, .pub⟩, none, none⟩) ↔
      Scan.afterTerminator true (ascii ';') 0 (Scan.code ks ++ [ascii ';']) = .ok []) ∧
    (Member.parse (utf8 "public $p = " ++ Scan.code ks ++ utf8 ";") =
        .ok (.property ⟨{ name := utf8 "$p", defaultValue := some (Scan.code ks), scope := some .pub },
          none, none⟩) ↔
      Scan.afterTerminator true (ascii ';') 0 (Scan.code ks ++ [ascii ';']) = .ok []) ∧
    (Scan.Transparent 0 ks →
      Scan.afterTerminator true (ascii ';') 0 (Scan.code ks ++ [ascii ';']) = .ok []) := by
  have hstatement : Scan.afterTerminator true (ascii ';') 0 (Scan.code ks ++ [ascii ';']) = .ok [] →
      Scan.IsStatement true (Scan.code ks) := fun hends => ⟨h.ne_nil, h.trim, hends⟩
  refine ⟨⟨fun hp => ?_, fun hends => ?_⟩, ⟨fun hp => ?_, fun hends => ?_⟩, fun ht => ?_⟩
  · exact (isStatement_initializer (writable_of_parse hp) rfl).ends
  · exact Grammar.parse_code (Grammar.declares_const (hstatement hends))
  · exact (isStatement_initializer (writable_of_parse hp) rfl).ends
  · exact Grammar.parse_code (Grammar.declares_public (hstatement hends))
  · exact (h.isStatement ht).ends

/-- An array with a `;` in a comment and a bracket in a string. -/
theorem reads_initializer_array :
    Scan.IsInitializer [⟨.byte, utf8 "["⟩, ⟨.comment, utf8 "/* ; */"⟩, ⟨.quoted, utf8 "')'"⟩, ⟨.byte, utf8 "]"⟩] ∧
    Member.parse (utf8 "const A = [/* ; */')'];") =
      .ok (.constant ⟨⟨utf8 "A", utf8 "[/* ; */')']", .pub⟩, none, none⟩) ∧
    Member.parse (utf8 "public $p = [/* ; */')'];") =
      .ok (.property ⟨{ name := utf8 "$p", defaultValue := some (utf8 "[/* ; */')']"), scope := some .pub },
        none, none⟩) := by
  have hcomment : ∀ rest, Scan.Stands ⟨.comment, utf8 "/*" ++ utf8 " ; " ++ utf8 "*/"⟩ rest := fun _ =>
    .block (by decide)
  have h : Scan.IsInitializer
      [⟨.byte, utf8 "["⟩, ⟨.comment, utf8 "/* ; */"⟩, ⟨.quoted, utf8 "')'"⟩, ⟨.byte, utf8 "]"⟩] := by
    exact ⟨⟨.byte (by decide) (by decide +kernel), hcomment _,
      .quoted (by decide) (by decide +kernel), .byte (by decide) (by decide +kernel), trivial⟩,
      by decide +kernel, Scan.whole_of_not_mem (by decide), by decide, by decide +kernel⟩
  have hends : Scan.afterTerminator true (ascii ';') 0 (utf8 "[/* ; */')']" ++ [ascii ';']) = .ok [] := by
    decide +kernel
  exact ⟨h, (reads_initializer_iff h).1.2 hends, (reads_initializer_iff h).2.1.2 hends⟩

/-- A `;` in a comment outside brackets ends the initializer. -/
theorem not_reads_initializer_comment :
    Scan.IsInitializer [⟨.byte, utf8 "1"⟩, ⟨.comment, utf8 "/* ; */"⟩] ∧
    (Member.parse (utf8 "const A = 1/* ; */;")).toOption = none ∧
    (Member.parse (utf8 "public $p = 1/* ; */;")).toOption = none := by
  have hcomment : Scan.Stands ⟨.comment, utf8 "/*" ++ utf8 " ; " ++ utf8 "*/"⟩ [ascii ';'] :=
    .block (by decide)
  have hlexes : Scan.Lexes [⟨.byte, utf8 "1"⟩, ⟨.comment, utf8 "/* ; */"⟩] [ascii ';'] :=
    ⟨.byte (by decide) (by decide +kernel), hcomment, trivial⟩
  exact ⟨⟨hlexes, by decide, Scan.whole_of_not_mem (by decide), by decide, by decide +kernel⟩,
    by decide +kernel, by decide +kernel⟩

end Member

namespace Scan

/-! ## The semicolon behind an initializer -/

/-- The last token of the text is a line comment. -/
def EndsInLineComment (v : Text) : Prop :=
  ∃ ks c, v = code ks ++ (utf8 "//" ++ c) ∧ Lexes ks (utf8 "//" ++ c) ∧ Within isInLine c

/-- A line comment at the end of a text goes on over a `;` behind it. -/
theorem EndsInLineComment.stripLexemes {v : Text} (h : EndsInLineComment v) :
    ∃ s, stripLexemes (v ++ [ascii ';']) = .ok s ∧ s.code.getLast? = some Byte.space := by
  obtain ⟨ks, c, rfl, hks, hc⟩ := h
  have hline : Within isInLine (c ++ [ascii ';']) := within_append.2 ⟨hc, by decide⟩
  have hlexes : Lexes (ks ++ [⟨.comment, utf8 "//" ++ (c ++ [ascii ';'])⟩]) [] := by
    refine lexes_append.2 ⟨?_, .line hline (apart_nil _), trivial⟩
    rw [lineStart] at hks
    have hstop := hks.stop (ascii '/' :: (c ++ [ascii ';']))
    simpa [lineStart] using hstop
  have hcode : code ks ++ (utf8 "//" ++ c) ++ [ascii ';'] =
      code (ks ++ [⟨.comment, utf8 "//" ++ (c ++ [ascii ';'])⟩]) := by simp
  rw [hcode, stripLexemes_code hlexes]
  refine ⟨_, rfl, ?_⟩
  simp [bare_of_comment]

/-- A last token that ends in a `;` is this `;` or a line comment. -/
theorem Stands.eq_of_semicolon {k : Token} {t : Text} (h : Stands k [])
    (hk : k.text = t ++ [ascii ';']) :
    k = semicolon ∨ k.kind = .comment ∧ ∃ c, t = utf8 "//" ++ c ∧ Within isInLine c := by
  cases h with
  | @quoted q u _ hq hu =>
    have hlast : (q :: u).getLast? = some (ascii ';') :=
      (congrArg List.getLast? hk).trans (List.getLast?_concat ..)
    rw [List.getLast?_cons, getLast?_of_afterQuote hu, Option.getD_some, Option.some.injEq] at hlast
    rw [hlast] at hq
    exact absurd hq (by decide)
  | @block inside _ hi =>
    have he : utf8 "/*" ++ inside ++ [ascii '*'] ++ [ascii '/'] = t ++ [ascii ';'] := by
      simpa [blockEnd] using hk
    exact absurd (List.append_inj' he rfl).2 (by decide)
  | @line inside _ hi _ =>
    right
    refine ⟨rfl, ?_⟩
    rcases List.eq_nil_or_concat inside with rfl | ⟨c, b, rfl⟩
    · have he : [ascii '/'] ++ [ascii '/'] = t ++ [ascii ';'] := by simpa [lineStart] using hk
      exact absurd (List.append_inj' he rfl).2 (by decide)
    · have he : utf8 "//" ++ c ++ [b] = t ++ [ascii ';'] := by simpa using hk
      rw [List.concat_eq_append, within_append] at hi
      exact ⟨c, (List.append_inj' he rfl).1.symm, hi.1⟩
  | @byte b _ _ _ =>
    left
    have he : [] ++ [b] = t ++ [ascii ';'] := hk
    rw [List.append_inj' he rfl |>.2]
    rfl

/-- The `;` behind a text from which the comments can be taken out belongs to the last token. -/
theorem exists_last_token {v : Text} {s : Stripped} (h : stripLexemes (v ++ [ascii ';']) = .ok s) :
    ∃ js k t, v = code js ++ t ∧ k.text = t ++ [ascii ';'] ∧ Lexes js k.text ∧ Stands k [] ∧
      s.code = code ((js ++ [k]).map Token.bare) := by
  obtain ⟨ks, hcode, hks⟩ := exists_code_of_stripLexemes h
  rcases List.eq_nil_or_concat ks with rfl | ⟨js, k, rfl⟩
  · simp at hcode
  rw [List.concat_eq_append] at hcode hks
  have hk : Stands k [] := (lexes_append.1 hks).2.1
  have hjs : Lexes js k.text := by simpa using (lexes_append.1 hks).1
  rcases List.eq_nil_or_concat k.text with hnil | ⟨t, b, ht⟩
  · exact absurd hnil hk.text_ne_nil
  rw [List.concat_eq_append] at ht
  have he : v ++ [ascii ';'] = (code js ++ t) ++ [b] := by simpa [ht] using hcode
  obtain ⟨hv, hb⟩ := List.append_inj' he rfl
  obtain rfl := (List.cons.inj hb).1
  have hs := stripLexemes_code hks
  rw [← hcode, h] at hs
  exact ⟨js, k, t, hv, ht, hjs, hk, congrArg Stripped.code (Except.ok.inj hs)⟩

theorem stripLexemes_semicolon_iff {v : Text} {s : Stripped}
    (h : stripLexemes (v ++ [ascii ';']) = .ok s) :
    s.code.getLast? = some (ascii ';') ↔ ¬EndsInLineComment v := by
  obtain ⟨js, k, t, rfl, ht, hjs, hk, hcode⟩ := exists_last_token h
  rcases hk.eq_of_semicolon ht with rfl | ⟨hkind, c, rfl, hc⟩
  · have hsemicolon : s.code.getLast? = some (ascii ';') := by simp [hcode, bare_of_ne, semicolon]
    refine iff_of_true hsemicolon fun hends => ?_
    obtain ⟨s', hs, hspace⟩ := hends.stripLexemes
    rw [h] at hs
    cases hs
    exact absurd (hsemicolon.symm.trans hspace) (by decide)
  · have hspace : s.code.getLast? = some Byte.space := by simp [hcode, bare_of_comment hkind]
    have hstop : Lexes js (utf8 "//" ++ c) := by
      rw [ht, lineStart] at hjs
      exact hjs.stop (ascii '/' :: c)
    refine iff_of_false (fun hlast => ?_) fun hno => hno ⟨js, c, rfl, hstop, hc⟩
    exact absurd (hlast.symm.trans hspace) (by decide)

/-- A `;` behind a text is left when the comments are taken out, unless the text ends in a line comment. -/
theorem strip_semicolon_iff {v : Text} {s : Stripped} (h : strip (v ++ [ascii ';']) = .ok s) :
    s.code.getLast? = some (ascii ';') ↔ ¬EndsInLineComment v := by
  unfold strip at h
  split at h
  · exact stripLexemes_semicolon_iff h
  · next hslash =>
    -- Without a `/` there is no comment.
    cases h
    refine iff_of_true (List.getLast?_concat ..) ?_
    rintro ⟨ks, c, rfl, -, -⟩
    simp [lineStart] at hslash

/-- Whether a text ends in a line comment does not depend on plain bytes in front of it. -/
theorem endsInLineComment_plain_append {w v : Text} (hw : Within Byte.isPlain w) :
    EndsInLineComment (w ++ v) ↔ EndsInLineComment v := by
  constructor
  · rintro ⟨ks, c, he, hks, hc⟩
    have hlexes : Lexes (ks ++ [⟨.comment, utf8 "//" ++ c⟩]) [] :=
      lexes_append.2 ⟨by simpa using hks, .line hc (apart_nil _), trivial⟩
    have hcode : code (ks ++ [⟨.comment, utf8 "//" ++ c⟩]) = w ++ v := by simpa using he.symm
    obtain ⟨ms, hms, rfl⟩ := exists_of_plain_append hw hlexes hcode
    rcases List.append_eq_append_iff.1 hms with ⟨a, ha, hline⟩ | ⟨a, rfl, rfl⟩
    · cases a with
      | nil =>
        rw [List.nil_append] at hline
        subst hline
        exact ⟨[], c, by simp, trivial, hc⟩
      | cons k a =>
        -- The comment is none of the bytes in front.
        obtain ⟨rfl, -⟩ := List.cons.inj hline
        have hkind := kind_of_mem_bytes (w := w) (ha ▸ List.mem_append_right ks List.mem_cons_self)
        cases hkind
    · exact ⟨a, c, by simp, (lexes_append.1 hks).2, hc⟩
  · rintro ⟨ks, c, rfl, hks, hc⟩
    refine ⟨bytes w ++ ks, c, by simp, ?_, hc⟩
    exact lexes_append.2 ⟨lexes_bytes hw _, hks⟩

end Scan

namespace Member

/-- What is written of a constant or a property in front of its initializer. -/
def declared : Member → Text
  | constant e => e.payload.scope.keyword ++ utf8 " const " ++ e.payload.name ++ utf8 " = "
  | property e =>
    Modifiers.written (Grammar.propertyModifiers e.payload.effectiveScope e.payload.isStatic) ++
      e.payload.type ++ utf8 " " ++ e.payload.name ++ utf8 " = "
  | method _ | traitUse _ => []

theorem plain_declared {m : Member} (h : m.Writable) : Within Byte.isPlain m.declared := by
  have hident : ∀ {w : Text}, IsIdent w → Within Byte.isPlain w := fun hw =>
    hw.within.mono Byte.isPlain_of_isIdent
  cases m with
  | constant e =>
    have hscope := hident (Modifier.isIdent_keyword (.scope e.payload.scope))
    simp only [declared, within_append]
    exact ⟨⟨⟨hscope, by decide⟩, hident h.1⟩, by decide⟩
  | property e =>
    obtain ⟨word, hword, hname⟩ := h.name
    have hmodifiers : Within Byte.isPlain (Modifiers.written
        (Grammar.propertyModifiers e.payload.effectiveScope e.payload.isStatic)) := by
      intro b hb
      obtain ⟨m, -, hb⟩ := List.mem_flatMap.1 hb
      rcases List.mem_append.1 hb with hb | hb
      · exact hident m.isIdent_keyword b hb
      · rw [List.mem_singleton.1 hb]
        decide
    simp only [declared, hname, within_append]
    exact ⟨⟨⟨⟨hmodifiers, Grammar.plain_of_isType h.type.isType⟩, by decide⟩, by decide, hident hword⟩, by decide⟩
  | method e | traitUse e => exact within_nil _

/-- What is written of a member with an initializer. -/
theorem render_initializer {m : Member} {v : Text} (hv : m.initializer? = some v) (l : Layout) :
    l.render m.pieces = l.render (memberStart m.commentBefore false) ++ l.piece (.indent 1) ++
      (m.declared ++ v ++ [ascii ';']) ++ l.render (Comment.behind m.trailingComment) ++ l.newline := by
  cases m with
  | constant e =>
    cases hv
    simp [pieces, Constant.pieces, render_memberEnd, declared, commentBefore, trailingComment]
  | property e =>
    have hd : e.payload.defaultValue = some v := hv
    unfold pieces TypedVar.propertyPieces declared Grammar.propertyModifiers wordIf commentBefore trailingComment
    simp only [Layout.render_append, TypedVar.render_declaration, render_memberEnd, TypedVar.defaultText, hd]
    cases e.payload.isStatic <;> simp [Scope.pieces, Modifiers.written, Modifier.keyword,
      show utf8 "static " = utf8 "static" ++ [Byte.space] by decide, show utf8 " " = [Byte.space] by decide]
  | method e | traitUse e => cases hv

/-- **When the `;` behind an initializer is visible.** The line that is written of a constant or a property
that is read ends in its initializer and a `;` in front of the comment on the line. If the comments are taken
out of it, or of the initializer and the `;`, the `;` is left exactly if the initializer does not end in a line
comment. -/
theorem semicolon_visible_iff {t v : Text} {m : Member} (h : Member.parse t = .ok m)
    (hv : m.initializer? = some v) :
    Layout.standard.render m.pieces =
        Layout.standard.render (memberStart m.commentBefore false) ++ Layout.standard.piece (.indent 1) ++
          (m.declared ++ v ++ [ascii ';']) ++ Layout.standard.render (Comment.behind m.trailingComment) ++
          newline ∧
      ∀ line ∈ [v ++ [ascii ';'], m.declared ++ v ++ [ascii ';']], ∀ s, Scan.strip line = .ok s →
        (s.code.getLast? = some (ascii ';') ↔ ¬Scan.EndsInLineComment v) := by
  refine ⟨render_initializer hv Layout.standard, fun line hline s hs => ?_⟩
  rcases List.mem_cons.1 hline with rfl | hline
  · exact Scan.strip_semicolon_iff hs
  · obtain rfl := List.mem_singleton.1 hline
    rw [Scan.strip_semicolon_iff hs,
      Scan.endsInLineComment_plain_append (plain_declared (writable_of_parse h))]

/-- A line comment that ends in front of the end of an array. -/
theorem semicolon_visible_array : ∃ m,
    Member.parse (utf8 "const A = [1, // one\n 2];") = .ok m ∧
    m.initializer? = some (utf8 "[1, // one\n 2]") ∧
    Scan.strip (utf8 "[1, // one\n 2]" ++ [ascii ';']) = .ok ⟨utf8 "[1,  \n 2];", 1⟩ ∧
    ¬Scan.EndsInLineComment (utf8 "[1, // one\n 2]") := by
  have hread : (Member.parse (utf8 "const A = [1, // one\n 2];")).toOption.map initializer? =
      some (some (utf8 "[1, // one\n 2]")) := by decide +kernel
  have hstrip : Scan.strip (utf8 "[1, // one\n 2]" ++ [ascii ';']) = .ok ⟨utf8 "[1,  \n 2];", 1⟩ := by
    decide +kernel
  obtain ⟨m, hm, hv⟩ := map_toOption_eq_some.1 hread
  refine ⟨m, hm, hv, hstrip, ?_⟩
  exact ((semicolon_visible_iff hm hv).2 _ List.mem_cons_self _ hstrip).1 (by decide)

/-- The line break behind a line comment does not belong to the initializer, so the `;` is written behind the
comment. -/
theorem semicolon_hidden : ∃ m,
    Member.parse (utf8 "const A = 1 // one\n;") = .ok m ∧ m.initializer? = some (utf8 "1 // one") ∧
    Scan.strip (utf8 "1 // one" ++ [ascii ';']) = .ok ⟨utf8 "1  ", 1⟩ ∧
    (utf8 "1  ").getLast? ≠ some (ascii ';') := by
  have hread : (Member.parse (utf8 "const A = 1 // one\n;")).toOption.map initializer? =
      some (some (utf8 "1 // one")) := by decide +kernel
  obtain ⟨m, hm, hv⟩ := map_toOption_eq_some.1 hread
  exact ⟨m, hm, hv, by decide +kernel, by decide⟩

end Member

end PhpClass
