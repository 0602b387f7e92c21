import PhpClass.Proofs.Declaration
import PhpClass.Proofs.HeaderText
import PhpClass.Proofs.MethodText

/-!
# Members that are written

What is written of a member is a gap with the comment in front of it, a stretch that declares it, and the
comment behind it (`Member.exists_renders`). So it is read back as the same member with the comments as they
are read and the parameters under their names (`Member.reread`). The comment behind a method with a body is
written in front of the body, and is read as a comment of the declaration itself.
-/

namespace PhpClass

open Text

namespace Grammar

/-! ## Declarations behind their heads -/

theorem constant_append {c : Constant} (hn : IsIdent c.name) (hv : Scan.IsStatement true c.value)
    (more : Text) : constant { scope := some c.scope }
      (Byte.space :: (c.name ++ (utf8 " = " ++ (c.value ++ ascii ';' :: more)))) = .ok (c, more) := by
  have hap : Apart Byte.isIdent (utf8 " = " ++ (c.value ++ ascii ';' :: more)) := apart_cons.2 (by decide)
  have hident := ident_of_isIdent .constantName hn hap
  have hequals : equals (skipBlanks (utf8 " = " ++ (c.value ++ ascii ';' :: more))) =
      .ok (Byte.space :: (c.value ++ ascii ';' :: more)) := by
    have hskip : skipBlanks ([Byte.space] ++ ascii '=' :: Byte.space :: (c.value ++ ascii ';' :: more)) =
        ascii '=' :: Byte.space :: (c.value ++ ascii ';' :: more) :=
      skipBlanks_append (by decide) (apart_cons.2 (by decide))
    exact (congrArg equals hskip).trans (equals_cons _)
  have hvalue := statement_append .constantValue isBlank_space hv more
  refine bind_eq_ok.2 ⟨_, by rw [skipBlanks_space hn]; exact hident, ?_⟩
  refine bind_eq_ok.2 ⟨_, hequals, ?_⟩
  exact bind_eq_ok.2 ⟨(c.value, more), by simpa using hvalue, rfl⟩

theorem propertyEnd_append {v : TypedVar} (hv : ∀ d ∈ v.defaultValue, Scan.IsStatement true d) (more : Text) :
    propertyEnd (skipBlanks (v.defaultText ++ ascii ';' :: more)) = .ok (v.defaultValue, more) := by
  unfold TypedVar.defaultText
  cases hd : v.defaultValue with
  | none =>
    have hskip : skipBlanks (ascii ';' :: more) = ascii ';' :: more :=
      dropWhile_of_apart (apart_cons.2 (by decide))
    rw [Option.elim_none, List.nil_append, hskip, propertyEnd, if_neg (by decide), if_pos rfl]
  | some d =>
    have hvalue := statement_append .propertyValue isBlank_space (hv d hd) more
    have hskip : skipBlanks ([Byte.space] ++ ascii '=' :: Byte.space :: (d ++ ascii ';' :: more)) =
        ascii '=' :: Byte.space :: (d ++ ascii ';' :: more) :=
      skipBlanks_append (by decide) (apart_cons.2 (by decide))
    have ht : utf8 " = " ++ d ++ ascii ';' :: more =
        [Byte.space] ++ ascii '=' :: Byte.space :: (d ++ ascii ';' :: more) := by
      simp [show utf8 " = " = [Byte.space, ascii '=', Byte.space] by decide]
    rw [Option.elim_some, ht, hskip, propertyEnd, if_pos rfl]
    exact bind_eq_ok.2 ⟨(d, more), by simpa using hvalue, rfl⟩

theorem property_append {v : TypedVar} (hv : v.IsProperty) {word : Text} (hword : IsIdent word)
    (hname : v.name = utf8 "$" ++ word) (more : Text) :
    property { scope := some v.effectiveScope, isStatic := v.isStatic } v.type
      (word ++ (v.defaultText ++ ascii ';' :: more)) = .ok (v, more) := by
  have hap : Apart Byte.isIdent (v.defaultText ++ ascii ';' :: more) := by
    unfold TypedVar.defaultText
    cases v.defaultValue <;> exact apart_cons.2 (by decide)
  have hident := ident_of_isIdent .propertyName hword hap
  refine bind_eq_ok.2 ⟨_, hident, bind_eq_ok.2 ⟨_, propertyEnd_append hv.default more, ?_⟩⟩
  have htype : typeOrMixed v.type = v.type := if_neg (by simpa using hv.type.ne_nil)
  obtain ⟨s, hs⟩ := Option.isSome_iff_exists.1 hv.hasScope
  rw [htype, ← hname]
  unfold TypedVar.effectiveScope
  cases v
  cases hs
  rfl

theorem traitUse_append {name : Text} (hn : Scan.IsStatement false name) (hb : Byte.openBrace ∉ name)
    (more : Text) : traitUse (Byte.space :: (name ++ ascii ';' :: more)) = .ok (name, more) := by
  have hname := statement_append .traitName isBlank_space hn more
  refine bind_eq_ok.2 ⟨(name, more), by simpa using hname, ?_⟩
  dsimp only
  rw [if_neg (by simpa using hb)]
  rfl

/-! ## Stretches that are written -/

/-- A head and a declaration behind it make up a stretch. -/
theorem declares_text (s : Text) (c : UInt8) (head : Head) {t : Text} {m : Member} (hgap : Scan.GapEnd t)
    (hc : Byte.isEnd c = true) (hh : head? t = some (head, s ++ [c])) (hm : m.commentBefore = none)
    (hd : ∀ before more, declaration before head (s ++ c :: more) =
      .ok (m.attach before (Scan.trailing more).1, (Scan.trailing more).2)) : Declares t m := by
  obtain ⟨p, ht, hp⟩ := declares_of_head hgap hc hh hm hd
  rw [List.append_nil] at ht
  exact ht ▸ hp

theorem gapEnd_modifier (m : Modifier) (l : List Modifier) (t : Text) :
    Scan.GapEnd (Modifiers.written (m :: l) ++ t) := by
  simp only [Modifiers.written, List.flatMap_cons, List.append_assoc]
  exact Scan.gapEnd_name m.isIdent_keyword.isName _

theorem gapEnd_modifiers {l : List Modifier} {s t : Text} (hs : Modifiers.Spells l s) (ht : Scan.GapEnd t) :
    Scan.GapEnd (s ++ t) := by
  cases hs with
  | nil => exact ht
  | @cons m _ _ _ _ _ =>
    rw [List.append_assoc]
    exact Scan.gapEnd_name m.isIdent_keyword.isName _

theorem declares_constant {c : Constant} (hn : IsIdent c.name) (hv : Scan.IsStatement true c.value) :
    Declares (Modifiers.written [.scope c.scope] ++ (utf8 "const" ++ Byte.space ::
      (c.name ++ (utf8 " = " ++ (c.value ++ [ascii ';']))))) (.constant ⟨c, none, none⟩) := by
  refine declares_text (Byte.space :: (c.name ++ (utf8 " = " ++ c.value))) (ascii ';')
    (.constant { scope := some c.scope }) (gapEnd_modifier _ _ _) (by decide) ?_ rfl ?_
  · have hhead := head?_constant c.scope (c.name ++ (utf8 " = " ++ (c.value ++ [ascii ';'])))
    simpa using hhead
  · intro before more
    have hread := constant_append hn hv more
    exact bind_eq_ok.2 ⟨(c, more), by simpa using hread, rfl⟩

theorem declares_property {v : TypedVar} (hv : v.IsProperty) :
    Declares (Modifiers.written (propertyModifiers v.effectiveScope v.isStatic) ++
      (v.type ++ Byte.space :: (v.name ++ (v.defaultText ++ [ascii ';'])))) (.property ⟨v, none, none⟩) := by
  obtain ⟨word, hword, hname⟩ := hv.name
  refine declares_text (word ++ v.defaultText) (ascii ';')
    (.property { scope := some v.effectiveScope, isStatic := v.isStatic } v.type)
    (gapEnd_modifier _ _ _) (by decide) ?_ rfl ?_
  · have hhead := head?_property (s := v.effectiveScope) hv.type (word ++ (v.defaultText ++ [ascii ';']))
    rw [hname]
    simpa using hhead
  · intro before more
    have hread := property_append hv hword hname more
    exact bind_eq_ok.2 ⟨(v, more), by simpa using hread, rfl⟩

theorem declares_traitUse {name : Text} (hn : Scan.IsStatement false name) (hb : Byte.openBrace ∉ name) :
    Declares (utf8 "use" ++ Byte.space :: (name ++ [ascii ';'])) (.traitUse ⟨name, none, none⟩) := by
  refine declares_text (Byte.space :: name) (ascii ';') .traitUse
    (Scan.gapEnd_name (w := utf8 "use") (by decide) _) (by decide) (head?_traitUse _) rfl ?_
  intro before more
  have hread := traitUse_append hn hb more
  exact bind_eq_ok.2 ⟨(name, more), by simpa using hread, rfl⟩

end Grammar

/-- The modifiers of a method in the order in which they are written. -/
def Method.modifiers (m : Method) : List Modifier :=
  (if m.isAbstract then [.abstract] else []) ++ (if m.isFinal then [.final] else []) ++ [.scope m.scope] ++
    if m.isStatic then [.static] else []

namespace Grammar

theorem foldl_modifiers (m : Method) : m.modifiers.foldl Modifiers.add {} =
    ⟨some m.scope, m.isStatic, m.isAbstract, m.isFinal⟩ := by
  unfold Method.modifiers
  cases m.isAbstract <;> cases m.isFinal <;> cases m.isStatic <;> rfl

/-- A method that is spelled is declared by its text. -/
theorem declares_spelled {m : Method} {mods : List Modifier} {s t : Text} {cs : List Text}
    (hs : Modifiers.Spells mods s) (hadmits : Modifiers.admitsAll {} mods = true)
    (hm : m.HasModifiers (mods.foldl Modifiers.add {})) (ht : SpellsBehind m cs t) :
    Declares (s ++ (utf8 "function" ++ t))
      (.method ⟨m.keyed, none, (Scan.kept (join newline cs)).map fun c => oneLine (trim c)⟩) := by
  obtain ⟨w, r, p, c, hw, hr, hp, hc⟩ : ∃ w r p c, IsBlanks w ∧ t = w ++ r ∧ t = p ++ [c] ∧ Byte.isEnd c = true := by
    cases ht with
    | @mk w w' more parts hw _ _ _ _ _ _ _ hbody =>
      obtain ⟨-, p, c, -, -, hp, hc, -, -, -, -⟩ := Method.exists_bodyText hbody
      rw [hp]
      exact ⟨w, _, w ++ (m.name ++ (w' ++ (Scan.inBrackets (join (utf8 ",") parts) ++ (more ++ p)))), c, hw, rfl,
        by simp, hc⟩
  refine declares_text p c (.method (mods.foldl Modifiers.add {})) ?_ hc ?_ rfl ?_
  · exact gapEnd_modifiers hs (Scan.gapEnd_name (w := utf8 "function") (by decide) _)
  · have hhead := head?_method hs hadmits hw r
    rw [← hp]
    rwa [← hr] at hhead
  · intro before rest
    have hread := method_spelled ht hm rest
    rw [hp] at hread
    exact bind_eq_ok.2 ⟨_, by simpa using hread, rfl⟩

theorem declares_method {m : Method} {l : Layout} (hl : l.Blank) (hm : m.Writable) {w g : Text}
    {cs : List Text} (hw : Within Byte.isBlank w) (hg : Scan.IsGap g cs) :
    Declares (Modifiers.written m.modifiers ++ (utf8 "function" ++ Byte.space :: (m.name ++ Byte.space ::
        (Scan.inBrackets (l.render m.parameterPieces) ++ (m.returnText ++ (w ++ (g ++ m.bodyText)))))))
      (.method ⟨m.keyed, none, (Scan.kept (join newline cs)).map fun c => oneLine (trim c)⟩) := by
  refine declares_spelled (Modifiers.spells_written _) ?_ ?_ (spellsBehind_written hl hm hw hg)
  · unfold Method.modifiers
    cases m.isAbstract <;> cases m.isFinal <;> cases m.isStatic <;> rfl
  · rw [foldl_modifiers]
    exact ⟨rfl, rfl, rfl, rfl⟩

end Grammar

/-! ## Members in a layout -/

namespace Member

/-- The pieces of a member of any kind. -/
def pieces : Member → List Piece
  | constant e => Constant.pieces e
  | property e => TypedVar.propertyPieces e
  | method e => Method.pieces e
  | traitUse e => traitPieces e

/-- The member as it is read back. -/
def reread : Member → Member
  | constant e => constant e.reread
  | property e => property e.reread
  | method e => method (e.map Method.keyed).reread
  | traitUse e => traitUse e.reread

/-- A member such as is read is read back as it is. -/
theorem Normal.reread_eq {m : Member} (h : m.Normal) : m.reread = m := by
  cases m with
  | constant e => exact congrArg constant (Element.Normal.reread_eq ⟨h.before, h.behind⟩)
  | property e => exact congrArg property (Element.Normal.reread_eq ⟨h.before, h.behind⟩)
  | traitUse e => exact congrArg traitUse (Element.Normal.reread_eq ⟨h.before, h.behind⟩)
  | method e =>
    have hkeyed : e.payload.keyed = e.payload := by
      unfold Method.keyed
      rw [← OrderedMap.eq_keyed (h.parameters e rfl)]
    have hmap : e.map Method.keyed = e := by
      unfold Element.map
      rw [hkeyed]
    rw [reread, hmap]
    exact congrArg method (Element.Normal.reread_eq ⟨h.before, h.behind⟩)

variable {l : Layout}

theorem isGap_memberStart (hl : l.Blank) {c : Option Text} (hc : ∀ t ∈ c, Comment.Writable t)
    (isMethod : Bool) : ∃ cs, Scan.IsGap (l.render (memberStart c isMethod) ++ l.piece (.indent 1)) cs ∧
      Scan.kept (join newline cs) = c.bind Scan.kept := by
  obtain ⟨cs, hg, hcs⟩ := Comment.isGap_before hl 1 hc
  have hindent := hg.append (Scan.isGap_blanks (hl.piece_indent 1))
  rw [List.append_nil] at hindent
  refine ⟨cs, ?_, hcs⟩
  unfold memberStart
  split
  · have hgap := (Scan.isGap_blanks hl.newline).append hindent
    simpa using hgap
  · simpa using hindent

/-- The text of a member: a gap, a declaration, and the comment behind it on its line. -/
structure Renders (l : Layout) (m : Member) (g s behind : Text) (cs : List Text) (alone : Member) : Prop where
  text : l.render m.pieces = g ++ (s ++ (behind ++ l.newline))
  isGap : Scan.IsGap g cs
  declares : Declares s alone
  trailing : ∀ rest, (Scan.trailing (behind ++ (l.newline ++ rest))).2 = l.newline ++ rest
  attach : ∀ rest, alone.attach (Scan.kept (join newline cs))
    (Scan.trailing (behind ++ (l.newline ++ rest))).1 = m.reread

theorem render_memberEnd (c : Option Text) :
    l.render (memberEnd c) = ascii ';' :: (l.render (Comment.behind c) ++ l.newline) := by
  simp [memberEnd, show utf8 ";" = [ascii ';'] by decide]

/-- A member that is written up to a `;` with a comment behind it. -/
theorem exists_renders_statement (code : Text) (alone : Member) (isMethod : Bool) (b : Option Text)
    (hl : l.Blank) {m : Member} {c : Option Text} (hc : ∀ t ∈ c, Comment.Writable t)
    (ht : l.render m.pieces = l.render (memberStart c isMethod) ++ l.piece (.indent 1) ++
      (code ++ l.render (memberEnd b)))
    (hd : Declares (code ++ [ascii ';']) alone)
    (hm : alone.attach (c.bind Scan.kept) (Comment.shown b) = m.reread) :
    ∃ g s behind cs alone, m.Renders l g s behind cs alone := by
  obtain ⟨cs, hg, hcs⟩ := isGap_memberStart hl hc isMethod
  have htrailing := Comment.trailing_newline hl b
  refine ⟨_, _, l.render (Comment.behind b), cs, alone, ?_, hg, hd, fun rest => ?_, fun rest => ?_⟩
  · rw [ht, render_memberEnd]
    simp
  · rw [htrailing]
  · rw [htrailing, hcs]
    exact hm

theorem exists_renders_constant (hl : l.Blank) {e : Element Constant} (he : (constant e).Writable)
    (hc : ∀ t ∈ e.commentBefore, Comment.Writable t) :
    ∃ g s behind cs alone, (constant e).Renders l g s behind cs alone := by
  refine exists_renders_statement (Modifiers.written [.scope e.payload.scope] ++ (utf8 "const" ++
      Byte.space :: (e.payload.name ++ (utf8 " = " ++ e.payload.value))))
    (.constant ⟨e.payload, none, none⟩) false e.trailingComment hl hc ?_ ?_ rfl
  · simp [pieces, Constant.pieces, Modifiers.written, Modifier.keyword,
      show utf8 " const " = Byte.space :: (utf8 "const" ++ [Byte.space]) by decide]
  · have hd := Grammar.declares_constant he.1 he.2
    simpa using hd

theorem exists_renders_property (hl : l.Blank) {e : Element TypedVar} (he : (property e).Writable)
    (hc : ∀ t ∈ e.commentBefore, Comment.Writable t) :
    ∃ g s behind cs alone, (property e).Renders l g s behind cs alone := by
  refine exists_renders_statement
    (Modifiers.written (Grammar.propertyModifiers e.payload.effectiveScope e.payload.isStatic) ++
      (e.payload.type ++ Byte.space :: (e.payload.name ++ e.payload.defaultText)))
    (.property ⟨e.payload, none, none⟩) false e.trailingComment hl hc ?_ ?_ rfl
  · unfold pieces TypedVar.propertyPieces Grammar.propertyModifiers wordIf
    rw [Layout.render_append, Layout.render_append, TypedVar.render_declaration]
    cases e.payload.isStatic <;> simp [Scope.pieces, Modifiers.written, Modifier.keyword,
      show utf8 "static " = utf8 "static" ++ [Byte.space] by decide]
  · have hd := Grammar.declares_property he
    simpa using hd

theorem exists_renders_traitUse (hl : l.Blank) {e : Element Text} (he : (traitUse e).Writable)
    (hc : ∀ t ∈ e.commentBefore, Comment.Writable t) :
    ∃ g s behind cs alone, (traitUse e).Renders l g s behind cs alone := by
  refine exists_renders_statement (utf8 "use" ++ Byte.space :: e.payload) (.traitUse ⟨e.payload, none, none⟩)
    false e.trailingComment hl hc ?_ ?_ rfl
  · simp [pieces, traitPieces, show utf8 "use " = utf8 "use" ++ [Byte.space] by decide]
  · have hd := Grammar.declares_traitUse he.1 he.2
    simpa using hd

/-! ## Methods in a layout -/

theorem render_signaturePieces (m : Method) : l.render m.signaturePieces =
    Modifiers.written m.modifiers ++ (utf8 "function" ++ Byte.space :: (m.name ++ Byte.space ::
      (Scan.inBrackets (l.render m.parameterPieces) ++ m.returnText))) := by
  unfold Method.signaturePieces Method.modifiers Method.returnText wordIf Scan.inBrackets
  cases m.isAbstract <;> cases m.isFinal <;> cases m.isStatic <;> cases m.returnType <;>
    simp [Scope.pieces, Modifiers.written, Modifier.keyword,
      show utf8 "abstract " = utf8 "abstract" ++ [Byte.space] by decide,
      show utf8 "final " = utf8 "final" ++ [Byte.space] by decide,
      show utf8 "static " = utf8 "static" ++ [Byte.space] by decide,
      show utf8 "function " = utf8 "function" ++ [Byte.space] by decide,
      show utf8 " (" = [Byte.space, ascii '('] by decide, show utf8 ")" = [ascii ')'] by decide]

theorem map_kept (t : Text) : (Scan.kept t).map (fun t => oneLine (trim t)) = (visible? t).map oneLine := by
  unfold Scan.kept visible?
  split <;> rfl

/-- The comment in front of a body stands in a gap, and is read as the comment behind an element is. -/
theorem exists_bodyComment (hl : l.Blank) (c : Option Text) :
    ∃ g cs, l.render
        (if (Comment.behind c).isEmpty then [.space] else Comment.behind c ++ [.newline, .indent 1]) =
          [Byte.space] ++ g ∧ Scan.IsGap g cs ∧
      (Scan.kept (join newline cs)).map (fun t => oneLine (trim t)) = Comment.shown c := by
  have hrender := Comment.render_behind (l := l) c
  cases hs : Comment.shown c with
  | none =>
    rw [hs, Option.elim_none] at hrender
    have hempty : Comment.behind c = [] := by
      unfold Comment.shown at hs
      unfold Comment.behind
      rw [Option.map_eq_none_iff.1 hs]
    refine ⟨[], [], ?_, .nil, rfl⟩
    rw [hempty]
    rfl
  | some t =>
    rw [hs, Option.elim_some] at hrender
    obtain ⟨ht, hne, hin⟩ := Comment.isShown_of_shown hs
    have hempty : (Comment.behind c).isEmpty = false := by
      cases hb : Comment.behind c with
      | nil => rw [hb] at hrender; cases hrender
      | cons => rfl
    obtain ⟨e, x, hnl, he⟩ := hl.breaks
    have hx : Within Byte.isBlank x := by
      have := hl.newline
      rw [hnl, within_cons] at this
      exact this.2
    have hline : Within Scan.isInLine ([Byte.space] ++ t) := within_append.2 ⟨by decide, hin⟩
    have hrest := Scan.isGap_blanks (within_append.2 ⟨hx, hl.piece_indent 1⟩)
    have hvisible := visible?_blanks isBlank_space ht hne (within_nil _)
    rw [List.append_nil] at hvisible
    refine ⟨utf8 "//" ++ ([Byte.space] ++ t) ++ e :: (x ++ l.piece (.indent 1)), [[Byte.space] ++ t], ?_,
      .line hline he (.blank (Byte.isBlank_of_isLineEnd e he) hrest), ?_⟩
    · rw [if_neg (by simp [hempty]), Layout.render_append, hrender, Comment.word_behind]
      simp [hnl]
    · have hself : oneLine t = t := oneLine_eq_self fun b hb => by simpa [Scan.isInLine] using hin b hb
      rw [show join newline [[Byte.space] ++ t] = [Byte.space] ++ t from List.intercalate_singleton, map_kept,
        hvisible, Option.map_some, hself]

theorem sideBySide_none (c : Option Text) : Grammar.sideBySide c none = c := by cases c <;> rfl

theorem exists_renders_method (hl : l.Blank) {e : Element Method} (he : (method e).Writable)
    (hc : ∀ t ∈ e.commentBefore, Comment.Writable t) :
    ∃ g s behind cs alone, (method e).Renders l g s behind cs alone := by
  cases hb : e.payload.isDeclarationOnly with
  | true =>
    have hd := Grammar.declares_method hl he (w := []) (within_nil _) Scan.IsGap.nil
    rw [show Scan.kept (join newline []) = none from rfl, Option.map_none] at hd
    refine exists_renders_statement (l.render e.payload.signaturePieces)
      (.method ⟨e.payload.keyed, none, none⟩) true e.trailingComment hl hc ?_ ?_ rfl
    · simp [pieces, Method.pieces, Method.bodyPieces, hb]
    · rw [render_signaturePieces]
      simpa [Method.bodyText, hb] using hd
  | false =>
    obtain ⟨cs, hg, hcs⟩ := isGap_memberStart hl hc true
    obtain ⟨g', cs', hrender, hg', hshown⟩ := exists_bodyComment hl e.trailingComment
    have hd := Grammar.declares_method hl he (w := [Byte.space]) (by decide) hg'
    obtain ⟨b, x, hnl, hend⟩ := hl.breaks
    have htrailing : ∀ rest, Scan.trailing ([] ++ (l.newline ++ rest)) = (none, l.newline ++ rest) := by
      intro rest
      rw [List.nil_append, hnl]
      exact Scan.trailing_lineEnd hend (x ++ rest)
    refine ⟨_, _, [], cs, _, ?_, hg, hd, fun rest => by rw [htrailing], fun rest => ?_⟩
    · show l.render (Method.pieces e) = _
      unfold Method.pieces Method.bodyPieces
      rw [if_neg (by simp [hb])]
      simp only [Layout.render_append, hrender, render_signaturePieces]
      simp [Method.bodyText, hb]
    · rw [htrailing, hcs, hshown]
      exact congrArg (fun b => method ⟨e.payload.keyed, e.commentBefore.bind Scan.kept, b⟩)
        (sideBySide_none (Comment.shown e.trailingComment))

/-- A member that can be written is written as a gap with its comment, a stretch that declares it, and the
comment behind it. -/
theorem exists_renders (hl : l.Blank) {m : Member} (hm : m.Writable)
    (hc : ∀ t ∈ m.commentBefore, Comment.Writable t) :
    ∃ g s behind cs alone, m.Renders l g s behind cs alone := by
  cases m with
  | constant e => exact exists_renders_constant hl hm hc
  | property e => exact exists_renders_property hl hm hc
  | method e => exact exists_renders_method hl hm hc
  | traitUse e => exact exists_renders_traitUse hl hm hc

end Member

end PhpClass
