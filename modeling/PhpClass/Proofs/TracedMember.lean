import PhpClass.Grammar.Member
import PhpClass.Proofs.TracedWord

/-!
# Members step by step

The readers of parameters and members as traced readings, each named for its reader. The kind of a member is found
out on the text ahead, cut out as a source of its own, and what a part of a parameter list holds on its code without
comments; the steps there are steps in these sources.
-/

namespace PhpClass

open Text Grammar

namespace Traced

/-! ## Parameters -/

/-- Code without its comments. What was passed over since the last comment, from `copied` on, is cut out in front
of the next one and at the end; `more` bytes follow the source. -/
def stripFrom (source : Text) (more : Nat) (copied t : Text) : Traced Scan.Stripped :=
  match t with
  | [] => do
    let code ← cut source copied []
    return ⟨code, 0⟩
  | b :: t =>
    match _h : Scan.lexeme b t with
    | .error e => lift (Read.ofScan (.error e) more)
    | .ok (.comment, rest) => do
      let code ← cut source copied (b :: t)
      let s ← stripFrom source more rest rest
      return ⟨code ++ Byte.space :: s.code, s.comments + 1⟩
    | .ok (_, rest) => stripFrom source more copied rest
termination_by t.length
decreasing_by all_goals exact Scan.lexeme_length ‹_›

/-- The code of a text, which is not read if it holds no slash. -/
def strip (more : Nat) (t : Text) : Traced Scan.Stripped :=
  if t.contains (ascii '/') then stripFrom t more t t else return ⟨t, 0⟩

def parameterDefault (code t : Text) : Traced (Option (Option Text)) :=
  match t with
  | [] => return some none
  | b :: rest =>
    if b = ascii '=' then do
      let value ← cut code rest []
      return (visible? value).map some
    else return none

def parameter (code : Text) : Traced (Option TypedVar) := do
  let (scope, t) := promotion (skipBlanks code)
  let (type, t) ← type code t
  let (reference, t) := mark (utf8 "&") (skipBlanks t)
  let (variadic, t) := mark (utf8 "...") (if reference.isEmpty then t else skipBlanks t)
  match after? (utf8 "$") t with
  | none => return none
  | some t =>
    let word ← cut code t (Text.ident t).2
    if word.isEmpty then return none
    else
      let default ← parameterDefault code (skipBlanks (Text.ident t).2)
      return default.map fun defaultValue => {
        name := reference ++ variadic ++ utf8 "$" ++ word
        type := typeOrMixed type
        defaultValue
        scope
      }

def parameterIn (left : Nat) (part : Text) : Traced (Option TypedVar) := do
  let stripped ← strip (left - part.length) part
  let code := stripped.code
  if isSpace code then return none
  else
    match ← parameter code with
    | some v => return some v
    | none =>
      let leading := code.length - (trimStart code).length
      lift (.error (.malformed ⟨.parameter (trim code), left - leading⟩))

/-- Cuts out the parts of a list that begins with `v`. -/
def parts (source v : Text) : List Text → Traced (List Text)
  | [] => return []
  | part :: more => do
    let text ← cut source v (v.drop part.length)
    let texts ← parts source (v.drop (part.length + 1)) more
    return text :: texts

def addParts (m : Method) (left : Nat) : List Text → Traced Method
  | [] => return m
  | part :: parts => do
    match ← parameterIn left part with
    | some v =>
      let m ← lift (Read.ofUnique (m.addParameter v))
      addParts m (left - (part.length + 1)) parts
    | none => addParts m (left - (part.length + 1)) parts

/-- Adds the parameters of a list in brackets to a method; the list begins with `v`. -/
def addParameterList (source : Text) (m : Method) (v list : Text) (more : Nat) : Traced Method := do
  let found ← lift (Read.ofScan (Scan.split list) more)
  let texts ← parts source v found
  addParts m (list.length + more) texts

/-! ## Kinds -/

def propertyHead (source t : Text) : Traced (Option (Head × Text)) := do
  let (modifiers, t) := Modifiers.read Modifier.ofProperty t
  let (type, t) ← type source t
  if notTypes.contains type then return none
  else return (after? (utf8 "$") (skipBlanks t)).map fun rest => (.property modifiers type, rest)

def head (source t : Text) : Traced (Option (Head × Text)) := do
  let property ← propertyHead source t
  return property.or <| (constantHead? t).or <| (methodHead? t).or <| traitHead? t

/-! ## Declarations -/

def propertyEnd (source t : Text) : Traced (Option Text × Text) :=
  match t with
  | [] => lift (Read.expect .propertyEnd [])
  | b :: rest =>
    if b = ascii '=' then do
      come source rest
      let (value, rest) ← statement source true .propertyValue rest
      return (some value, rest)
    else if b = ascii ';' then do
      come source rest
      return (none, rest)
    else lift (Read.expect .propertyEnd (b :: rest))

def property (source : Text) (modifiers : Modifiers) (type t : Text) : Traced (TypedVar × Text) := do
  let (word, rest) ← ident source .propertyName t
  let (defaultValue, rest) ← propertyEnd source (skipBlanks rest)
  return ({
    name := utf8 "$" ++ word
    type := typeOrMixed type
    defaultValue
    scope := some (modifiers.scope.getD .pub)
    isStatic := modifiers.isStatic
  }, rest)

def constant (source : Text) (modifiers : Modifiers) (t : Text) : Traced (Constant × Text) := do
  let (name, rest) ← ident source .constantName (skipBlanks t)
  let rest ← reach source (equals (skipBlanks rest))
  let (value, rest) ← statement source true .constantValue rest
  return (⟨name, value, modifiers.scope.getD .pub⟩, rest)

def typeName (source t : Text) : Traced (Text × Text) := do
  let rest := t.dropWhile fun b => !endsReturnType b
  let text ← cut source t rest
  match visible? text with
  | some type =>
    come source rest
    return (type, rest)
  | none => lift (Read.expect .returnType t)

def returnType (source t : Text) : Traced (Option Text × Text × Text) :=
  match after? (utf8 ":") t with
  | none => return (none, [], t)
  | some rest => do
    come source rest
    let (before, rest) ← gap source rest
    let (type, rest) ← typeName source rest
    let (behind, rest) ← gap source rest
    return (some type, before ++ behind, rest)

def methodBody (source t : Text) : Traced (Text × Text) :=
  match t with
  | [] => lift (Read.expect .methodBody [])
  | b :: rest =>
    if b = Byte.openBrace then do
      let behind ← lift (Read.ofScan (Scan.afterBracket (b :: rest)))
      let body ← cut source (b :: rest) behind
      come source behind
      return (body, behind)
    else if b = ascii ';' then do
      come source rest
      return ([], rest)
    else lift (Read.expect .methodBody (b :: rest))

def method (source : Text) (modifiers : Modifiers) (t : Text) : Traced ((Method × Option Text) × Text) := do
  let (name, behindName) ← ident source .methodName (skipBlanks t)
  let (list, rest) ← lift (parameterList (skipBlanks behindName))
  let m ← addParameterList source {
    name
    scope := modifiers.scope.getD .pub
    isStatic := modifiers.isStatic
    isAbstract := modifiers.isAbstract
    isFinal := modifiers.isFinal
  } (skipBlanks behindName).tail (Scan.insideBrackets list) (rest.length + 1)
  come source rest
  let (before, rest) ← gap source rest
  let (returnType, around, rest) ← returnType source rest
  let (body, rest) ← methodBody source rest
  let comment := (Scan.commentText? (before ++ around)).map fun c => oneLine (trim c)
  return (({ m with returnType, body }, comment), rest)

def traitUse (source t : Text) : Traced (Text × Text) := do
  let (name, rest) ← statement source false .traitName t
  if name.contains Byte.openBrace then lift (Read.stop .traitAdaptation t) else return (name, rest)

def declaration (source : Text) (comment : Option Text) (head : Head) (t : Text) : Traced (Member × Text) :=
  match head with
  | .property modifiers type => do
    let (v, rest) ← property source modifiers type t
    let (behind, rest) ← trailing source rest
    return (.property ⟨v, comment, behind⟩, rest)
  | .constant modifiers => do
    let (c, rest) ← constant source modifiers t
    let (behind, rest) ← trailing source rest
    return (.constant ⟨c, comment, behind⟩, rest)
  | .method modifiers => do
    let ((m, inSignature), rest) ← method source modifiers t
    let (behind, rest) ← trailing source rest
    return (.method ⟨m, comment, sideBySide inSignature behind⟩, rest)
  | .traitUse => do
    let (name, rest) ← traitUse source t
    let (behind, rest) ← trailing source rest
    return (.traitUse ⟨name, comment, behind⟩, rest)

def member (source : Text) (comment : Option Text) (t : Text) : Traced (Member × Text) := do
  let text ← cut source t []
  let kind ← head text text
  -- now that the kind is known, the words are read in the source
  let again ← head source t
  match kind, again with
  | some _, some (head, rest) =>
    come source rest
    declaration source comment head rest
  | _, _ => lift (Read.stop .notAMember t)

end Traced

namespace Scan

/-- On both sides of a comment. -/
theorem comment_ahead {copied t rest : Text} {b : UInt8} (hcopied : isUtf8 copied = true) (ht : b :: t <:+ copied)
    (h : lexeme b t = .ok (.comment, rest)) : Ahead copied (b :: t) ∧ Ahead (b :: t) rest := by
  unfold lexeme at h
  split at h
  · split at h <;> cases h
  · split at h
    · cases h
    · next hc =>
      cases h
      have hb : b = ascii '/' := by
        rcases comment?_eq_append hc with he | he
        · exact (List.cons.inj he).1
        · exact (List.cons.inj he).1
      obtain ⟨hopen, -⟩ := ahead_of_ascii (b := b) (by rw [hb]; decide) hcopied ht
      obtain ⟨v, w, -, -, hin, -, hrest⟩ := comment?_ahead hopen.utf8 hc
      exact ⟨hopen, (hin.ahead.trans hin.ahead_end).trans hrest⟩
    · cases h

theorem ofScan_strip_nil (t : Text) (more : Nat) : (do
      let s ← Read.ofScan (stripLexemes t) more
      return { s with code := [] ++ s.code }) = Read.ofScan (stripLexemes t) more := by
  cases stripLexemes t <;> rfl

/-- What stripping puts behind the code that was passed over before. -/
theorem ofScan_strip_comment {b : UInt8} {t rest : Text} (h : lexeme b t = .ok (.comment, rest)) (more : Nat)
    (before : Text) : (do
      let s ← Read.ofScan (stripLexemes (b :: t)) more
      return { s with code := before ++ s.code }) = (do
      let s ← Read.ofScan (stripLexemes rest) more
      return (⟨before ++ Byte.space :: s.code, s.comments + 1⟩ : Stripped)) := by
  rw [stripLexemes]
  split <;> rename_i hl <;> rw [h] at hl <;> cases hl
  cases stripLexemes rest <;> rfl

theorem ofScan_strip_code {b : UInt8} {t rest : Text} {kind : Lexeme} (hkind : kind ≠ .comment)
    (h : lexeme b t = .ok (kind, rest)) (more : Nat) (before : Text) : (do
      let s ← Read.ofScan (stripLexemes (b :: t)) more
      return { s with code := before ++ s.code }) = (do
      let s ← Read.ofScan (stripLexemes rest) more
      return ({ s with code := before ++ upTo (b :: t) rest ++ s.code } : Stripped)) := by
  have hbyte : kind = .byte → upTo (b :: t) rest = [b] := by
    rintro rfl
    obtain ⟨rfl, -⟩ := lexeme_byte h
    exact upTo_append [b] t
  let found (comments : Nat) (code : Text) : Read Stripped := .ok ⟨code, comments⟩
  rw [stripLexemes]
  split <;> rename_i hl <;> rw [h] at hl <;> cases hl
  · exact absurd rfl hkind
  · rw [hbyte rfl]
    cases stripLexemes rest with
    | error e => rfl
    | ok s => exact congrArg (found s.comments) (List.append_cons before b s.code)
  · cases stripLexemes rest with
    | error e => rfl
    | ok s => exact congrArg (found s.comments) (List.append_assoc _ _ _).symm

end Scan

namespace Grammar

theorem ascii_of_endsReturnType : ∀ b, (!endsReturnType b) = false → b < 0x80 :=
  Byte.forall_of_fin (by decide +kernel)

end Grammar

namespace Keeps

variable {source t rest : Text}

/-! ## Parameters -/

theorem stripFrom {copied : Text} (more : Nat) (hcopied : Ahead source copied) (ht : t <:+ copied) :
    Keeps (fun s => isUtf8 s.code = true) (Traced.stripFrom source more copied t) (do
      let s ← Read.ofScan (Scan.stripLexemes t) more
      return { s with code := upTo copied t ++ s.code }) := by
  -- byte by byte, `t` may come to stand inside a character; in front of a comment it does not
  fun_induction Traced.stripFrom source more copied t with
  | case1 copied =>
    refine cut hcopied ⟨List.nil_suffix, rfl⟩ ?_
    rw [Scan.stripLexemes]
    change Keeps _ _ (.ok (⟨upTo copied [] ++ [], 0⟩ : Scan.Stripped))
    rw [List.append_nil, upTo_nil]
    exact pure hcopied.utf8
  | case2 copied b t e hl =>
    rw [Scan.stripLexemes]
    split <;> rename_i h <;> rw [hl] at h <;> cases h
    exact error _
  | case3 copied b t rest hl ih =>
    obtain ⟨hopen, hrest⟩ := Scan.comment_ahead hcopied.utf8 ht hl
    rw [Scan.ofScan_strip_comment hl]
    refine cut hcopied hopen ?_
    have hmore := ih (hcopied.trans (hopen.trans hrest)) List.suffix_rfl
    rw [upTo_self, Scan.ofScan_strip_nil] at hmore
    refine hmore.bind ?_
    intro s _ hs
    refine pure ?_
    rw [isUtf8_append (Ahead.isUtf8_upTo hcopied.utf8 hopen), isUtf8_cons_ascii (by decide)]
    exact hs
  | case4 copied b t kind rest hkind hl ih =>
    have hsuffix := (Scan.lexeme_suffix hl).trans (List.suffix_cons b t)
    rw [Scan.ofScan_strip_code hkind hl, ← upTo_trans ht hsuffix]
    exact ih hcopied (hsuffix.trans ht)

theorem strip (more : Nat) (ht : isUtf8 t = true) :
    Keeps (fun s => isUtf8 s.code = true) (Traced.strip more t) (Read.ofScan (Scan.strip t) more) := by
  unfold Traced.strip Scan.strip
  split
  · have h := stripFrom more (.refl ht) (List.suffix_rfl (l := t))
    rwa [upTo_self, Scan.ofScan_strip_nil] at h
  · change Keeps _ _ (.ok (⟨t, 0⟩ : Scan.Stripped))
    exact pure ht

theorem isUtf8_keyword (s : Scope) : isUtf8 s.keyword = true := by cases s <;> decide

theorem isUtf8_modifier (m : Modifier) : isUtf8 m.keyword = true := by
  cases m with
  | scope s => exact isUtf8_keyword s
  | static => decide
  | abstract => decide
  | final => decide

theorem promotion_ahead {scope : Option Scope} (ht : Ahead source t) (h : promotion t = (scope, rest)) :
    Ahead source rest := by
  unfold promotion at h
  split at h
  · next s behind hs =>
    cases h
    obtain ⟨s', -, hs'⟩ := List.exists_of_findSome?_eq_some hs
    obtain ⟨r, hr, he⟩ := Option.map_eq_some_iff.1 hs'
    cases he
    exact skipBlanks_ahead (ahead_of_keyword? (isUtf8_keyword s) ht hr)
  · cases h
    exact ht

theorem mark_ahead {m read : Text} (hm : isUtf8 m = true) (ht : Ahead source t) (h : mark m t = (read, rest)) :
    Ahead source rest := by
  unfold mark at h
  split at h
  · next hr =>
    cases h
    exact ht.trans (after?_ahead hm ht.utf8 hr)
  · cases h
    exact ht

theorem parameterDefault {code : Text} (ht : Ahead code t) :
    Keeps (fun _ => True) (Traced.parameterDefault code t) (.ok (Grammar.parameterDefault? t)) := by
  unfold Traced.parameterDefault Grammar.parameterDefault?
  cases t with
  | nil => exact pure trivial
  | cons b rest =>
    dsimp only
    by_cases hb : b = ascii '='
    · rw [if_pos hb, if_pos hb]
      refine cut (ht.tail (by rw [hb]; decide)) ⟨List.nil_suffix, rfl⟩ ?_
      rw [upTo_nil]
      exact pure trivial
    · rw [if_neg hb, if_neg hb]
      exact pure trivial

theorem parameter {code : Text} (hcode : isUtf8 code = true) :
    Keeps (fun _ => True) (Traced.parameter code) (.ok (Grammar.parameter? code)) := by
  unfold Traced.parameter Grammar.parameter?
  rcases hp : promotion (skipBlanks code) with ⟨scope, behindScope⟩
  have hscope := promotion_ahead (skipBlanks_ahead (.refl hcode)) hp
  refine (type hscope).bind_ok ?_
  dsimp only
  rcases Text.type behindScope with ⟨type, behindType⟩
  intro htype
  dsimp only
  rcases hr : mark (utf8 "&") (skipBlanks behindType) with ⟨reference, behindReference⟩
  have hreference : Ahead code behindReference := mark_ahead (by decide) (skipBlanks_ahead htype) hr
  dsimp only
  rcases hv : mark (utf8 "...") (if reference.isEmpty then behindReference else skipBlanks behindReference) with
    ⟨variadic, behindVariadic⟩
  have hvariadic : Ahead code behindVariadic := by
    refine mark_ahead (by decide) ?_ hv
    split
    · exact hreference
    · exact skipBlanks_ahead hreference
  dsimp only
  cases hd : after? (utf8 "$") behindVariadic with
  | none => exact pure trivial
  | some t =>
    have ht : Ahead code t := hvariadic.trans (after?_ahead (by decide) hvariadic.utf8 hd)
    have hword : Ahead t (Text.ident t).2 := ident_ahead ht.utf8
    refine cut ht hword ?_
    rw [upTo_ident]
    unfold ident?
    dsimp only [Option.bind_eq_bind, Option.bind_some]
    by_cases hempty : (Text.ident t).1.isEmpty
    · rw [if_pos hempty, if_pos hempty]
      exact pure trivial
    · rw [if_neg hempty, if_neg hempty]
      refine (parameterDefault (skipBlanks_ahead (ht.trans hword))).bind_ok fun _ => ?_
      dsimp only [Option.bind_some]
      cases parameterDefault? (skipBlanks (Text.ident t).2) with
      | none => exact pure trivial
      | some d => exact pure trivial

theorem parameterIn (left : Nat) {part : Text} (hpart : isUtf8 part = true) :
    Keeps (fun _ => True) (Traced.parameterIn left part) (Grammar.parameterIn left part) := by
  refine (strip (left - part.length) hpart).bind ?_
  intro s _ hs
  dsimp only
  split
  · exact pure trivial
  · refine (parameter hs).bind_ok fun _ => ?_
    cases parameter? s.code with
    | none => exact error _
    | some v => exact pure trivial

theorem addParts (m : Method) (left : Nat) {parts : List Text} (hparts : ∀ p ∈ parts, isUtf8 p = true) :
    Keeps (fun _ => True) (Traced.addParts m left parts) (Grammar.addParts m left parts) := by
  induction parts generalizing m left with
  | nil => exact pure trivial
  | cons part parts ih =>
    obtain ⟨hpart, hparts⟩ := List.forall_mem_cons.1 hparts
    rw [Traced.addParts, Grammar.addParts]
    refine (parameterIn left hpart).bind ?_
    rintro (_ | v) - -
    · exact ih _ _ hparts
    · refine lift_any.bind ?_
      intro n _ _
      exact ih n _ hparts

theorem parts {v w : Text} {found : List Text} (h : Scan.Parted w v found) (hv : Ahead source v) :
    Keeps (fun ps => ∀ p ∈ ps, isUtf8 p = true) (Traced.parts source v found) (.ok found) := by
  induction h with
  | @last part hw =>
    rw [Traced.parts, List.drop_left]
    refine cut hv hw ?_
    rw [upTo_append]
    have hpart := Ahead.isUtf8_upTo hv.utf8 hw
    rw [upTo_append] at hpart
    exact pure (List.forall_mem_singleton.2 hpart)
  | @cons part rest parts hcomma hrest _ ih =>
    rw [Traced.parts, List.drop_left]
    refine cut hv hcomma ?_
    have hpart := Ahead.isUtf8_upTo hv.utf8 hcomma
    rw [upTo_append] at hpart ⊢
    rw [show (part ++ ascii ',' :: rest).drop (part.length + 1) = rest by simp]
    exact (ih (hv.trans hrest)).bind_ok fun hmore => pure (List.forall_mem_cons.2 ⟨hpart, hmore⟩)

theorem addParameterList {m : Method} {v w list : Text} (hv : Ahead source v) (hlist : v = list ++ w)
    (hw : isUtf8 w = true) (more : Nat) :
    Keeps (fun _ => True) (Traced.addParameterList source m v list more) (Grammar.addParameterList m list more) := by
  refine lift_any.bind ?_
  intro found hfound _
  obtain ⟨hne, hjoin⟩ := Scan.splitFirst_join (Read.ofScan_eq_ok.1 hfound)
  rw [List.take_length] at hjoin
  subst hlist
  have hparted := Scan.parted_join hne hw (by rw [hjoin]; exact hv.utf8)
  rw [hjoin] at hparted
  exact (parts hparted hv).bind_ok fun hparts => addParts m _ hparts

/-! ## Kinds -/

theorem modifiers_ahead (allowed : List Modifier) (ht : Ahead source t) : Ahead source (Modifiers.read allowed t).2 := by
  unfold Modifiers.read
  fun_induction Modifiers.readFrom allowed {} t with
  | case1 ms t m rest h ih =>
    obtain ⟨n, -, hn⟩ := List.exists_of_findSome?_eq_some h
    obtain ⟨r, hr, he⟩ := Option.map_eq_some_iff.1 hn
    cases he
    exact ih (skipBlanks_ahead (ahead_of_keyword? (isUtf8_modifier m) ht hr))
  | case2 => exact ht

theorem propertyHead (ht : Ahead source t) :
    Keeps (fun _ => True) (Traced.propertyHead source t) (.ok (Grammar.propertyHead? t)) := by
  unfold Traced.propertyHead Grammar.propertyHead?
  refine (type (modifiers_ahead _ ht)).bind_ok fun _ => ?_
  dsimp only
  by_cases hword : notTypes.contains (Text.type (Modifiers.read Modifier.ofProperty t).2).1
  · rw [if_pos hword, if_pos hword]
    exact pure trivial
  · rw [if_neg hword, if_neg hword]
    exact pure trivial

theorem head (ht : Ahead source t) :
    Keeps (fun _ => True) (Traced.head source t) (.ok (Grammar.head? t)) :=
  (propertyHead ht).bind_ok fun _ => pure trivial

theorem propertyHead?_ahead {h : Head} (ht : Ahead source t) (hh : Grammar.propertyHead? t = some (h, rest)) :
    Ahead source rest := by
  unfold Grammar.propertyHead? at hh
  dsimp only at hh
  split at hh
  · cases hh
  · obtain ⟨r, hr, he⟩ := Option.map_eq_some_iff.1 hh
    cases he
    have hmodifiers := modifiers_ahead Modifier.ofProperty ht
    have htype := skipBlanks_ahead (hmodifiers.trans (afterType_ahead hmodifiers.utf8))
    exact htype.trans (after?_ahead (by decide) htype.utf8 hr)

theorem keywordHead?_ahead {allowed : List Modifier} {word : Text} {h : Head} {make : Modifiers → Head}
    (hword : isUtf8 word = true) (ht : Ahead source t)
    (hh : ((keyword? word (Modifiers.read allowed t).2).map fun rest =>
      (make (Modifiers.read allowed t).1, rest)) = some (h, rest)) : Ahead source rest := by
  obtain ⟨r, hr, he⟩ := Option.map_eq_some_iff.1 hh
  cases he
  exact ahead_of_keyword? hword (modifiers_ahead allowed ht) hr

theorem head?_ahead {h : Head} (ht : Ahead source t) (hh : Grammar.head? t = some (h, rest)) : Ahead source rest := by
  unfold Grammar.head? at hh
  rcases Option.or_eq_some_iff.1 hh with hh | ⟨-, hh⟩
  · exact propertyHead?_ahead ht hh
  rcases Option.or_eq_some_iff.1 hh with hh | ⟨-, hh⟩
  · exact keywordHead?_ahead (by decide) ht hh
  rcases Option.or_eq_some_iff.1 hh with hh | ⟨-, hh⟩
  · exact keywordHead?_ahead (by decide) ht hh
  · obtain ⟨r, hr, he⟩ := Option.map_eq_some_iff.1 hh
    cases he
    exact ahead_of_keyword? (by decide) ht hr

/-! ## Declarations -/

theorem propertyEnd (ht : Ahead source t) :
    Keeps (Leaves source) (Traced.propertyEnd source t) (Grammar.propertyEnd t) := by
  unfold Traced.propertyEnd Grammar.propertyEnd
  cases t with
  | nil => exact error _
  | cons b rest =>
    dsimp only
    by_cases hequals : b = ascii '='
    · have hrest := ht.tail (by rw [hequals]; decide)
      rw [if_pos hequals, if_pos hequals]
      refine come hrest ((statement hrest true .propertyValue).bind ?_)
      rintro ⟨value, rest⟩ - hvalue
      exact pure hvalue
    · rw [if_neg hequals, if_neg hequals]
      by_cases hend : b = ascii ';'
      · have hrest := ht.tail (by rw [hend]; decide)
        rw [if_pos hend, if_pos hend]
        exact arrive hrest
      · rw [if_neg hend, if_neg hend]
        exact error _

theorem property (ht : Ahead source t) (modifiers : Modifiers) (type : Text) :
    Keeps (Leaves source) (Traced.property source modifiers type t) (Grammar.property modifiers type t) := by
  refine (ident ht .propertyName).bind ?_
  rintro ⟨word, rest⟩ - hword
  refine (propertyEnd (skipBlanks_ahead hword)).bind ?_
  rintro ⟨defaultValue, rest⟩ - hrest
  exact pure hrest

theorem constant (ht : Ahead source t) (modifiers : Modifiers) :
    Keeps (Leaves source) (Traced.constant source modifiers t) (Grammar.constant modifiers t) := by
  refine (ident (skipBlanks_ahead ht) .constantName).bind ?_
  rintro ⟨name, rest⟩ - hname
  have hblanks := skipBlanks_ahead hname
  refine (reach fun behind hbehind => ?_).bind ?_
  · unfold equals at hbehind
    split at hbehind
    · next hequals =>
      cases hbehind
      exact hblanks.trans (after?_ahead (by decide) hblanks.utf8 hequals)
    · cases hbehind
  · rintro behind - hbehind
    refine (statement hbehind true .constantValue).bind ?_
    rintro ⟨value, rest⟩ - hrest
    exact pure hrest

theorem typeName (ht : Ahead source t) :
    Keeps (Leaves source) (Traced.typeName source t) (Grammar.typeName t) := by
  have hrest : Ahead t (t.dropWhile fun b => !endsReturnType b) := dropWhile_ahead ascii_of_endsReturnType ht.utf8
  refine cut ht hrest ?_
  rw [upTo_dropWhile]
  unfold Grammar.typeName splitWhile
  dsimp only
  cases visible? (t.takeWhile fun b => !endsReturnType b) with
  | none => exact error _
  | some type => exact arrive (ht.trans hrest)

theorem returnType (ht : Ahead source t) :
    Keeps (fun r => Ahead source r.2.2) (Traced.returnType source t) (Grammar.returnType t) := by
  unfold Traced.returnType Grammar.returnType
  cases hc : after? (utf8 ":") t with
  | none => exact pure ht
  | some rest =>
    have hrest : Ahead source rest := ht.trans (after?_ahead (by decide) ht.utf8 hc)
    refine come hrest ((gap hrest).bind ?_)
    rintro ⟨before, rest⟩ - hrest
    refine (typeName hrest).bind ?_
    rintro ⟨type, rest⟩ - hrest
    refine (gap hrest).bind ?_
    rintro ⟨behind, rest⟩ - hrest
    exact pure hrest

theorem methodBody (ht : Ahead source t) :
    Keeps (Leaves source) (Traced.methodBody source t) (Grammar.methodBody t) := by
  unfold Traced.methodBody Grammar.methodBody
  cases t with
  | nil => exact error _
  | cons b rest =>
    dsimp only
    by_cases hopen : b = Byte.openBrace
    · rw [if_pos hopen, if_pos hopen]
      unfold Scan.bracketed
      cases hr : Scan.afterBracket (b :: rest) with
      | error e => exact error _
      | ok behind =>
        have hblock : Scan.bracketed (b :: rest) = .ok (upTo (b :: rest) behind, behind) := by
          rw [Scan.bracketed, hr]
          rfl
        obtain ⟨-, -, -, -, hbehind⟩ := Scan.bracketed_ahead ht.utf8 hblock
        refine lift_any.bind_ok fun _ => cut ht hbehind ?_
        exact arrive (ht.trans hbehind)
    · rw [if_neg hopen, if_neg hopen]
      by_cases hend : b = ascii ';'
      · have hrest := ht.tail (by rw [hend]; decide)
        rw [if_pos hend, if_pos hend]
        exact arrive hrest
      · rw [if_neg hend, if_neg hend]
        exact error _

theorem method (ht : Ahead source t) (modifiers : Modifiers) :
    Keeps (Leaves source) (Traced.method source modifiers t) (Grammar.method modifiers t) := by
  refine (ident (skipBlanks_ahead ht) .methodName).bind ?_
  rintro ⟨name, behindName⟩ - hname
  have hopen := skipBlanks_ahead hname
  refine lift_any.bind ?_
  rintro ⟨list, rest⟩ hlist -
  unfold parameterList at hlist
  split at hlist
  · obtain ⟨c, hinside, htail, hclose, hrest⟩ := Scan.bracketed_ahead hopen.utf8 (Read.ofScan_eq_ok.1 hlist)
    refine (addParameterList (hopen.trans htail) hinside hclose.utf8 _).bind ?_
    rintro m - -
    refine come (hopen.trans hrest) ((gap (hopen.trans hrest)).bind ?_)
    rintro ⟨before, rest⟩ - hrest
    refine (returnType hrest).bind ?_
    rintro ⟨returnType, around, rest⟩ - hrest
    refine (methodBody hrest).bind ?_
    rintro ⟨body, rest⟩ - hrest
    exact pure hrest
  · cases hlist

theorem traitUse (ht : Ahead source t) :
    Keeps (Leaves source) (Traced.traitUse source t) (Grammar.traitUse t) := by
  refine (statement ht false .traitName).bind ?_
  rintro ⟨name, rest⟩ - hrest
  dsimp only
  split
  · exact error _
  · exact pure hrest

theorem declaration (ht : Ahead source t) (comment : Option Text) (head : Head) :
    Keeps (Leaves source) (Traced.declaration source comment head t) (Grammar.declaration comment head t) := by
  cases head with
  | property modifiers type =>
    refine (property ht modifiers type).bind ?_
    rintro ⟨v, rest⟩ - hrest
    exact (trailing hrest).bind_ok fun hrest => pure hrest
  | constant modifiers =>
    refine (constant ht modifiers).bind ?_
    rintro ⟨c, rest⟩ - hrest
    exact (trailing hrest).bind_ok fun hrest => pure hrest
  | method modifiers =>
    refine (method ht modifiers).bind ?_
    rintro ⟨⟨m, inSignature⟩, rest⟩ - hrest
    exact (trailing hrest).bind_ok fun hrest => pure hrest
  | traitUse =>
    refine (traitUse ht).bind ?_
    rintro ⟨name, rest⟩ - hrest
    exact (trailing hrest).bind_ok fun hrest => pure hrest

theorem member (ht : Ahead source t) (comment : Option Text) :
    Keeps (Leaves source) (Traced.member source comment t) (Grammar.member comment t) := by
  refine cut ht ⟨List.nil_suffix, rfl⟩ ?_
  rw [upTo_nil]
  refine (head (.refl ht.utf8)).bind_ok fun _ => (head ht).bind_ok fun _ => ?_
  unfold Grammar.member
  cases hh : head? t with
  | none => exact error _
  | some h =>
    obtain ⟨head, rest⟩ := h
    have hrest := head?_ahead ht hh
    exact come hrest (declaration hrest comment head)

end Keeps

end PhpClass
