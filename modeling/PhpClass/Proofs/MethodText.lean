import PhpClass.Proofs.HeadText
import PhpClass.Proofs.Local

/-!
# Methods that are written

Behind its name a method is spelled as its parameters, its return type and its body, or a `;` in its place, with gaps in
between. All of it is read back, whatever the gaps say (`Grammar.method_spelled`). What is written of a method is one of
its spellings (`Grammar.spellsBehind_written`), in which the comment moves between the return type and the body.
-/

namespace PhpClass

open Text

namespace Method

/-- The return type as it is written. -/
def returnText (m : Method) : Text := m.returnType.elim [] fun type => utf8 ": " ++ type

/-- The body as it is written, or what stands in its place. -/
def bodyText (m : Method) : Text := if m.isDeclarationOnly then [ascii ';'] else m.body

/-- The parameters, each under its name. -/
def keyed (m : Method) : Method := { m with parameters := .keyed TypedVar.name m.parameters.values }

/-- A method ends in a byte that ends declarations, and its return type in front of its body. -/
theorem exists_bodyText {m : Method} (h : IsBody m.body) : ∃ b s c t, m.bodyText = b :: t ∧
    m.bodyText = s ++ [c] ∧ Byte.isEnd c = true ∧ Grammar.endsReturnType b = true ∧ Byte.isBlank b = false ∧
      b ≠ ascii '/' ∧ b ≠ ascii ':' := by
  unfold bodyText isDeclarationOnly
  rcases h with h | ⟨hhead, hbr⟩
  · rw [h]
    exact ⟨ascii ';', [], ascii ';', [], rfl, rfl, by decide, by decide, by decide, by decide, by decide⟩
  · obtain ⟨o, c, ks, hoc, hbody, -, -, -⟩ := Scan.bracketed_eq_ok.1 hbr
    have ho : o = Byte.openBrace := by
      rw [hbody] at hhead
      exact Option.some.inj hhead
    subst ho
    have hc : c = Byte.closeBrace := (Option.some.inj hoc).symm
    subst hc
    rw [hbody]
    exact ⟨Byte.openBrace, Byte.openBrace :: Scan.code ks, Byte.closeBrace, _, rfl, by simp, by decide,
      by decide, by decide, by decide, by decide⟩

end Method

namespace Grammar

open Scan

theorem methodBody_append {m : Method} (h : IsBody m.body) (more : Text) :
    methodBody (m.bodyText ++ more) = .ok (m.body, more) := by
  unfold Method.bodyText Method.isDeclarationOnly
  rcases h with h | ⟨hhead, hbr⟩
  · rw [h]
    rfl
  · have hread := bracketed_append hbr more
    obtain ⟨t, ht⟩ := List.head?_eq_some_iff.1 hhead
    rw [ht] at hread ⊢
    rw [if_neg (by simp), List.cons_append, methodBody, if_pos rfl]
    exact Read.ofScan_eq_ok.2 hread

/-- Neither a blank nor a comment stands at the front of a return type. -/
theorem gapEnd_returnType {type : Text} (h : IsReturnType type) (t : Text) : GapEnd (type ++ t) := by
  have hblank := apart_blank_of_trim h.trim
  obtain ⟨b, u, rfl⟩ := List.exists_cons_of_ne_nil h.ne_nil
  refine gapEnd_cons (apart_cons.1 hblank) ?_
  rintro rfl
  have := h.within _ List.mem_cons_self
  revert this
  decide

variable {w g rest : Text} {cs : List Text}

/-- What stands between the parameters and the body: gaps with these comments, and a return type behind its `:`, if
there is one. -/
inductive SpellsReturn : Option Text → List Text → Text → Prop where
  | none {g : Text} {cs : List Text} (hg : IsGap g cs) : SpellsReturn none cs g
  | some {g₁ g₂ g₃ type : Text} {cs₁ cs₂ cs₃ : List Text} (h₁ : IsGap g₁ cs₁) (h₂ : IsGap g₂ cs₂)
      (htype : IsReturnType type) (h₃ : IsGap g₃ cs₃) :
      SpellsReturn (some type) (cs₁ ++ cs₂ ++ cs₃) (g₁ ++ (utf8 ":" ++ (g₂ ++ (type ++ g₃))))

/-- A return type is read up to the first comment behind it, with the blanks in between. -/
theorem typeName_spelled {type : Text} (htype : IsReturnType type) (hg : IsGap g cs)
    (hrest : Apart (fun b => !endsReturnType b) rest) :
    ∃ g', IsGap g' cs ∧ typeName (type ++ (g ++ rest)) = .ok (type, g' ++ rest) := by
  obtain ⟨w, g', rfl, hw, hg', hap⟩ := exists_blanks_gap hg
  have hend : Apart (fun b => !endsReturnType b) (g' ++ rest) := by
    rcases hap with rfl | ⟨g', rfl⟩
    · exact hrest
    · exact apart_cons.2 (by decide)
  have hvisible := visible?_blanks (within_nil _) htype.trim htype.ne_nil hw
  rw [List.nil_append] at hvisible
  have hblank : Within (fun b => !endsReturnType b) w := hw.mono (Byte.forall_of_fin (by decide +kernel))
  have hread := typeName_append (within_append.2 ⟨htype.within, hblank⟩) hvisible hend
  exact ⟨g', hg', by simpa using hread⟩

/-- What stands between the parameters and the body is read with the comments in front of the `:` and those behind. -/
theorem returnType_spelled {o : Option Text} {t : Text} (ht : SpellsReturn o cs t) :
    ∃ before around, commentText? (before ++ around) = kept (join newline cs) ∧
      ∀ rest, GapEnd rest → after? (utf8 ":") rest = none → Apart (fun b => !endsReturnType b) rest →
        ∃ r, gap (t ++ rest) = .ok (before, r) ∧ returnType r = .ok (o, around, rest) := by
  cases ht with
  | none hg =>
    refine ⟨collected cs, [], by rw [List.append_nil, commentText?_collected], fun rest hend hcolon _ => ?_⟩
    refine ⟨rest, gap_append hg hend, ?_⟩
    unfold returnType
    rw [hcolon]
  | @some g₁ g₂ g₃ type cs₁ cs₂ cs₃ h₁ h₂ htype h₃ =>
    refine ⟨collected cs₁, collected cs₂ ++ collected cs₃, ?_, fun rest hend _ hap => ?_⟩
    · have hall : collected cs₁ ++ (collected cs₂ ++ collected cs₃) = collected (cs₁ ++ cs₂ ++ cs₃) := by
        simp [collected]
      rw [hall, commentText?_collected]
    · have hcolon : GapEnd (utf8 ":" ++ (g₂ ++ (type ++ (g₃ ++ rest)))) := gapEnd_cons (by decide) (by decide)
      obtain ⟨g₄, h₄, htypeName⟩ := typeName_spelled htype h₃ hap
      refine ⟨utf8 ":" ++ (g₂ ++ (type ++ (g₃ ++ rest))), ?_, ?_⟩
      · simp only [List.append_assoc]
        exact gap_append h₁ hcolon
      · unfold returnType
        rw [after?_append]
        have hfront := gap_append h₂ (gapEnd_returnType htype (g₃ ++ rest))
        exact bind_eq_ok.2 ⟨_, Read.ofScan_eq_ok.2 hfront, bind_eq_ok.2 ⟨_, htypeName,
          bind_eq_ok.2 ⟨_, Read.ofScan_eq_ok.2 (gap_append h₄ hend), rfl⟩⟩⟩

end Grammar

/-- These modifiers say what the method says. -/
structure Method.HasModifiers (m : Method) (ms : Modifiers) : Prop where
  scope : ms.scope.getD .pub = m.scope
  isStatic : ms.isStatic = m.isStatic
  isAbstract : ms.isAbstract = m.isAbstract
  isFinal : ms.isFinal = m.isFinal

namespace Grammar

open Scan

/-- A method behind the word `function`, with a list from which its parameters are read, and these comments between the
list and the body. -/
inductive SpellsBehind (m : Method) (cs : List Text) : Text → Prop where
  | mk {w w' more : Text} {parts : List Text} (hw : IsBlanks w) (hname : IsIdent m.name)
      (hw' : Within Byte.isBlank w') (hne : parts ≠ []) (hparts : ∀ t ∈ parts, IsSegment t)
      (hlisted : Listed parts m.parameters.values) (hnames : (m.parameters.values.map TypedVar.name).Nodup)
      (hreturn : SpellsReturn m.returnType cs more) (hbody : IsBody m.body) :
      SpellsBehind m cs (w ++ (m.name ++ (w' ++ (inBrackets (join (utf8 ",") parts) ++ (more ++ m.bodyText)))))

/-- A method is read from what stands behind the word `function`. -/
theorem method_spelled {m : Method} {ms : Modifiers} {t : Text} (ht : SpellsBehind m cs t) (hms : m.HasModifiers ms)
    (rest : Text) :
    method ms (t ++ rest) = .ok ((m.keyed, (kept (join newline cs)).map fun c => oneLine (trim c)), rest) := by
  cases ht with
  | @mk w w' more parts hw hname hw' hne hparts hlisted hnames hreturn hbody =>
    obtain ⟨b, s, c, t, hb, -, -, hends, hblank, hslash, hcolon⟩ := Method.exists_bodyText hbody
    obtain ⟨before, around, hcomment, hread⟩ := returnType_spelled hreturn
    obtain ⟨r, hbefore, hreturn⟩ := hread (m.bodyText ++ rest) (by rw [hb]; exact gapEnd_cons hblank hslash)
      (by rw [hb]; exact after?_singleton.2 fun h => hcolon (Option.some.inj h))
      (by rw [hb]; exact apart_cons.2 (by simp [hends]))
    have hbracket : Apart Byte.isBlank (inBrackets (join (utf8 ",") parts) ++ (more ++ (m.bodyText ++ rest))) :=
      apart_cons.2 (by decide)
    have hident : Apart Byte.isIdent (w' ++ (inBrackets (join (utf8 ",") parts) ++ (more ++ (m.bodyText ++ rest)))) :=
      apart_blanks hw' (apart_cons.2 (by decide))
    have hword := ident_of_isIdent .methodName hname hident
    rw [← skipBlanks_append hw.2 (hname.apart_blank.append hname.1)] at hword
    simp only [List.append_assoc]
    refine bind_eq_ok.2 ⟨_, hword, ?_⟩
    refine bind_eq_ok.2 ⟨_, by rw [skipBlanks_append hw' hbracket]; exact parameterList_join hparts hne _, ?_⟩
    refine bind_eq_ok.2 ⟨_, addParameterList_join hparts hne hlisted hnames rfl _, ?_⟩
    refine bind_eq_ok.2 ⟨_, Read.ofScan_eq_ok.2 hbefore, bind_eq_ok.2 ⟨_, hreturn, ?_⟩⟩
    refine bind_eq_ok.2 ⟨_, methodBody_append hbody rest, ?_⟩
    obtain ⟨hscope, hstatic, habstract, hfinal⟩ := hms
    dsimp only
    rw [hcomment, hscope, hstatic, habstract, hfinal]
    rfl

/-- What is written of a method is one of its spellings. -/
theorem spellsBehind_written {m : Method} {l : Layout} (hl : l.Blank) (hm : m.Writable) (hw : Within Byte.isBlank w)
    (hg : IsGap g cs) : SpellsBehind m cs (Byte.space :: (m.name ++ Byte.space ::
      (inBrackets (l.render m.parameterPieces) ++ (m.returnText ++ (w ++ (g ++ m.bodyText)))))) := by
  obtain ⟨items, hne, ht, hitems, hlisted⟩ := exists_items hl hm.parameters
  have hgap := (isGap_blanks hw).append hg
  have hreturn : SpellsReturn m.returnType cs (m.returnText ++ (w ++ g)) := by
    unfold Method.returnText
    cases hr : m.returnType with
    | none => exact .none hgap
    | some type =>
      have hspelled := SpellsReturn.some .nil (isGap_blanks isBlank_space) (hm.returnType type hr) hgap
      simpa [show utf8 ": " = utf8 ":" ++ [Byte.space] by decide] using hspelled
  have hspelled := SpellsBehind.mk isBlanks_space hm.name isBlank_space hne (fun t ht => (hitems t ht).isSegment)
    hlisted hm.names hreturn hm.body
  rw [ht]
  simpa using hspelled

end Grammar

end PhpClass
