import PhpClass.Proofs.DeclarationText
import PhpClass.Proofs.HeaderGaps
import PhpClass.Proofs.ParameterGaps

/-!
# Gaps in methods

A method does not depend on the order of its modifiers, on the blanks between its words, or on the gaps in its parameter
list and around its return type. Each of its spellings declares it (`Grammar.declares_method_spelled`), so no other kind
of member is found at the front of one.

* `Member.parse_method`: a method is read from each of its spellings.
* `Member.parse_scopeAsType`: a parameter without a scope must not have a type that begins with the word of one.
-/

namespace PhpClass

open Text

namespace Grammar

open Scan (IsGapText)

/-- A method whose parameters are kept under their names, with blanks between its words and gaps everywhere behind the
bracket that opens its parameter list. -/
inductive SpellsMethod (m : Method) : Text → Prop where
  | mk {mods : List Modifier} {s w w' more : Text} {parts cs : List Text} (hmods : Modifiers.Spells mods s)
      (hadmits : Modifiers.admitsAll {} mods = true) (hm : m.HasModifiers (mods.foldl Modifiers.add {}))
      (hw : IsBlanks w) (hname : IsIdent m.name) (hw' : Within Byte.isBlank w')
      (hparts : SpellsParameters m.parameters.values parts) (hne : parts ≠ [])
      (hkeys : m.parameters.keys = m.parameters.values.map TypedVar.name) (hreturn : SpellsReturn m.returnType cs more)
      (hbody : IsBody m.body) :
      SpellsMethod m (s ++ (utf8 "function" ++ (w ++ (m.name ++ (w' ++ (Scan.inBrackets (join (utf8 ",") parts) ++
        (more ++ m.bodyText)))))))

theorem declares_method_spelled {m : Method} {t : Text} (h : SpellsMethod m t)
    (hm : ∀ v ∈ m.parameters.values, v.IsUnscoped) : ∃ c, Declares t (.method ⟨m, none, c⟩) := by
  cases h with
  | @mk mods s w w' more parts cs hmods hadmits hmark hw hname hw' hparts hne hkeys hreturn hbody =>
    obtain ⟨hlisted, hsegments⟩ := listed_spelled hparts hm
    have hnames : (m.parameters.values.map TypedVar.name).Nodup := hkeys ▸ m.parameters.nodup_keys
    have hkeyed : m.keyed = m := by
      unfold Method.keyed
      rw [← OrderedMap.eq_keyed hkeys]
    have hdeclares := declares_spelled hmods hadmits hmark
      (.mk hw hname hw' hne hsegments hlisted hnames hreturn hbody)
    rw [hkeyed] at hdeclares
    exact ⟨_, hdeclares⟩

/-- A stretch that declares a member is read as this member between any gaps. -/
theorem onlyMember_between {g d g' : Text} {m : Member} (hd : Declares d m) (hg : IsGapText g) (hg' : IsGapText g') :
    ∃ before behind, onlyMember (g ++ (d ++ g')) = .ok (m.attach before behind) := by
  obtain ⟨c, hc⟩ := comment_gap hg (hd.gapEnd g')
  obtain ⟨last, hlast⟩ := comment_trailing hg' Scan.gapEnd_nil
  rw [List.append_nil] at hlast
  exact ⟨c, (Scan.trailing g').1, bind_eq_ok.2 ⟨_, hc, bind_eq_ok.2 ⟨_, hd.member c g', bind_eq_ok.2 ⟨_, hlast, rfl⟩⟩⟩⟩

end Grammar

namespace Member

/-- **The layout of a method does not matter.** A method is read from each of its spellings, with any gaps around it. A
parameter without a scope must not have a type that begins with the word of one. -/
theorem parse_method {m : Method} {g t g' : Text} (h : Grammar.SpellsMethod m t)
    (hscope : ∀ v ∈ m.parameters.values, v.IsUnscoped) (hg : Scan.IsGapText g) (hg' : Scan.IsGapText g') :
    ∃ e, Member.parse (g ++ (t ++ g')) = .ok (.method e) ∧ e.payload = m := by
  obtain ⟨c, hd⟩ := Grammar.declares_method_spelled h hscope
  obtain ⟨before, behind, hread⟩ := Grammar.onlyMember_between hd hg hg'
  refine ⟨⟨m, before, Grammar.sideBySide c behind⟩, ?_, rfl⟩
  unfold Member.parse
  rw [hread]
  rfl

/-- Comments that look like parts of a method are none. -/
theorem parse_disguisedMethod :
    let vs : List TypedVar :=
      [{ name := utf8 "&...$x", type := utf8 "?int", defaultValue := some (utf8 "[1, ')']"), scope := some .priv },
        { name := utf8 "$y" }]
    let m : Method := { name := utf8 "f", parameters := .keyed TypedVar.name vs, body := utf8 "\x7b \x7d"
                        returnType := some (utf8 "?A"), isFinal := true }
    ∃ e, Member.parse (utf8 ("/*const*/final\tpublic function f\n(/*)*/private ?int // \",\n&...$x= [1, ')']" ++
        "/*,*/,$y,):/*;*/?A // \x7b\n\x7b \x7d//\n")) = .ok (.method e) ∧ e.payload = m := by
  intro vs m
  have block : ∀ inside, holds (utf8 "*/") inside = false →
      Scan.IsGap (utf8 "/*" ++ inside ++ utf8 "*/" ++ []) [inside] := fun _ h => .block h .nil
  have line : ∀ inside, Within Scan.isInLine inside →
      Scan.IsGap (utf8 "//" ++ inside ++ [Byte.lineFeed]) [inside] := fun _ h =>
    .line h (by decide) (.blank (by decide) .nil)
  have hspace := Scan.isGap_blanks isBlank_space
  have hentries : m.parameters.entries = vs.map fun v => (v.name, v) := OrderedMap.entries_keyed (by decide)
  obtain ⟨hvalues, hkeys⟩ := OrderedMap.values_of_entries hentries
  have hdefault : IsDefault (utf8 "[1, ')']") :=
    ⟨by decide, by decide +kernel, by decide +kernel, by decide +kernel, by decide +kernel⟩
  have hfirst := Grammar.SpellsParameter.mk (v := vs[0])
    ⟨_, block (utf8 ")") (by decide)⟩ (.some ⟨_, hspace⟩ (by decide))
    (.some (by decide) (by decide) ⟨_, hspace.append (line (utf8 " \",") (by decide))⟩)
    (.reference (w := utf8 "x") Scan.isGapText_nil (.inr rfl) (by decide)) Scan.isGapText_nil
    (.some ⟨_, hspace⟩ hdefault ⟨_, block (utf8 ",") (by decide)⟩) rfl
  have hsecond := Grammar.SpellsParameter.mk (v := vs[1]) Scan.isGapText_nil .none .none
    (.value (d := []) (w := utf8 "y") (.inl rfl) (by decide)) Scan.isGapText_nil .none rfl
  have hcomma : Grammar.SpellsParameters [] [[]] := .gaps (by simp [Scan.isGapText_nil])
  have hparameters := Grammar.SpellsParameters.cons hfirst (by decide) (.cons hsecond nofun hcomma)
  rw [show [vs[0], vs[1]] = m.parameters.values from hvalues.symm] at hparameters
  have hspelled := Grammar.SpellsMethod.mk
    (.cons (m := .final) (w := utf8 "\t") ⟨by decide, by decide⟩ (.cons (m := .scope .pub) isBlanks_space .nil))
    (by decide) ⟨rfl, rfl, rfl, rfl⟩ isBlanks_space (by decide) (show Within Byte.isBlank (utf8 "\n") by decide)
    hparameters (by simp) hkeys
    (.some .nil (block (utf8 ";") (by decide)) ⟨by decide, by decide +kernel, by decide⟩
      (hspace.append (line (utf8 " \x7b") (by decide)))) (.inr ⟨rfl, by decide +kernel⟩)
  have hscope : ∀ v ∈ m.parameters.values, v.IsUnscoped := by
    rw [hvalues, List.forall_mem_cons, List.forall_mem_singleton]
    exact ⟨nofun, fun _ s => by cases s <;> decide⟩
  have hread := parse_method hspelled hscope ⟨_, block (utf8 "const") (by decide)⟩ ⟨_, line [] (by decide)⟩
  exact (congrArg (fun t => ∃ e, Member.parse t = .ok (.method e) ∧ e.payload = m) (by decide +kernel)).mp hread

/-- The types of the parameters, if the member is a method. -/
def parameterTypes? : Member → Option (List Text)
  | method e => some (e.payload.parameters.values.map TypedVar.type)
  | _ => none

/-- A parameter without a scope is not read from its spelling if its type is the word of a scope. -/
theorem parse_scopeAsType :
    let vs : List TypedVar := [{ name := utf8 "$x", type := utf8 "public" }]
    let m : Method := { name := utf8 "f", parameters := .keyed TypedVar.name vs }
    Grammar.SpellsMethod m (utf8 "function f(public $x);") ∧
      ¬ ∃ e, Member.parse (utf8 "function f(public $x);") = .ok (.method e) ∧ e.payload = m := by
  intro vs m
  have hentries : m.parameters.entries = vs.map fun v => (v.name, v) := OrderedMap.entries_keyed (by decide)
  obtain ⟨hvalues, hkeys⟩ := OrderedMap.values_of_entries hentries
  constructor
  · have hparameter := Grammar.SpellsParameter.mk (v := vs[0]) Scan.isGapText_nil
      .none (.some (by decide) (by decide) (Scan.isGapText_blanks isBlank_space))
      (.value (d := []) (w := utf8 "x") (.inl rfl) (by decide)) Scan.isGapText_nil .none rfl
    have hnothing : Grammar.SpellsParameters [] [] := .gaps (by simp)
    have hparameters := Grammar.SpellsParameters.cons hparameter nofun hnothing
    rw [show [vs[0]] = m.parameters.values from hvalues.symm] at hparameters
    have hspelled := Grammar.SpellsMethod.mk .nil rfl ⟨rfl, rfl, rfl, rfl⟩ isBlanks_space (by decide)
      (within_nil _) hparameters (by simp) hkeys (.none .nil) (.inl rfl)
    exact (congrArg (Grammar.SpellsMethod m) (by decide +kernel)).mp hspelled
  · rintro ⟨e, hread, he⟩
    have hother : (Member.parse (utf8 "function f(public $x);")).toOption.bind parameterTypes? = some [mixed] := by
      decide +kernel
    have htypes : parameterTypes? (.method e) = some [utf8 "public"] := by
      rw [parameterTypes?, he, hvalues]
      rfl
    rw [hread] at hother
    exact absurd (htypes.symm.trans hother) (by decide)

end Member

end PhpClass
