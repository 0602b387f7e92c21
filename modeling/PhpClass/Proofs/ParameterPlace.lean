import PhpClass.Proofs.Margin
import PhpClass.Proofs.ParameterFailure
import PhpClass.Proofs.Position

/-!
# Where a malformed parameter is reported

A part of a parameter list that is no parameter is reported at a place of the source (`ListedPart`). This place is
counted from the beginning of the part, but past the white space in front of the code of the part without its comments.
So it is the place of that code if no comment stands in front of it, and too small otherwise, by all but one byte of
each of these comments. Then it can be inside a character.
-/

namespace PhpClass

open Text

namespace Text

/-- Parts with a comma behind each. -/
def withCommas (parts : List Text) : Text := parts.flatMap (· ++ [ascii ','])

theorem length_withCommas_cons (part : Text) (parts : List Text) :
    (withCommas (part :: parts)).length = part.length + 1 + (withCommas parts).length := by
  rw [withCommas, List.flatMap_cons, List.length_append, List.length_append]
  rfl

/-- Parts with a comma behind each, one part, and parts with a comma in front of each. -/
theorem join_append_cons (before : List Text) (part : Text) (after : List Text) :
    join [ascii ','] (before ++ part :: after) =
      withCommas before ++ (part ++ after.flatMap (ascii ',' :: ·)) := by
  induction before with
  | cons q before ih =>
    have hne : before ++ part :: after ≠ [] := List.append_ne_nil_of_right_ne_nil _ (List.cons_ne_nil part after)
    obtain ⟨r, rs, hr⟩ := List.exists_cons_of_ne_nil hne
    rw [hr] at ih
    rw [List.cons_append, hr, join_cons_cons, ih, withCommas, withCommas, List.flatMap_cons]
    simp only [List.append_assoc]
  | nil =>
    induction after generalizing part with
    | nil => simp [join, withCommas]
    | cons q after ih =>
      have htail := ih q
      rw [List.nil_append] at htail
      rw [List.nil_append, join_cons_cons, htail]
      simp [withCommas]

end Text

namespace Grammar

/-- A part of a parameter list in a source. -/
structure ListedPart where
  /-- What stands in front of the bracket of the list. -/
  front : Text
  /-- The parts in front of this one. -/
  before : List Text
  part : Text
  /-- The comments in front of the code of the part. -/
  comments : List Text
  /-- The part from its code on. -/
  own : Text
  /-- The parts behind this one. -/
  after : List Text
  /-- What stands behind the bracket that closes the list. -/
  behind : Text

namespace ListedPart

/-- The parameter list without its brackets. -/
def list (p : ListedPart) : Text := join [ascii ','] (p.before ++ p.part :: p.after)

/-- Where the part begins. -/
def start (p : ListedPart) : Nat := p.front.length + 1 + (withCommas p.before).length

/-- Where the code of the part begins. -/
def codeStart (p : ListedPart) : Nat := p.start + (p.part.length - p.own.length)

/-- What follows the part. -/
def more (p : ListedPart) : Text := p.after.flatMap (ascii ',' :: ·) ++ ascii ')' :: p.behind

/-- The source holds this list of a method, which begins where reading has come to `t`. The list is split into its
parts, those in front of this one are parameters, and this one is none, with this code. -/
structure Malformed (p : ListedPart) (source t code : Text) : Prop where
  source_eq : source = p.front ++ (Scan.inBrackets p.list ++ p.behind)
  suffix : t <:+ source
  method : HasParameterList t p.list p.behind
  splits : Scan.Splits p.list (p.before ++ p.part :: p.after)
  read : ∃ vs, Listed p.before vs
  unread : ∃ stripped, Scan.strip p.part = .ok stripped ∧ parameter? stripped.code = none ∧ trim stripped.code = code
  margin_iff : ∀ cs own, Scan.MarginTo p.part cs own ∧ Scan.BeginsCode own ↔ cs = p.comments ∧ own = p.own

/-- What is reported of the part. -/
structure Reported (p : ListedPart) (source : Text) (offset : Nat) (place : Position) : Prop where
  place_eq : place = .locate source offset
  offset_add : offset + Scan.lostBytes p.comments = p.codeStart
  offset_eq_iff : offset = p.codeStart ↔ p.comments = []
  isPlace : IsPlace source p.codeStart

variable {p : ListedPart} {source t code : Text}

theorem source_eq_part (p : ListedPart) : p.front ++ (Scan.inBrackets p.list ++ p.behind) =
    p.front ++ ascii '(' :: withCommas p.before ++ (p.part ++ p.more) := by
  rw [Scan.inBrackets, list, join_append_cons, more]
  simp

theorem length_front (p : ListedPart) : (p.front ++ ascii '(' :: withCommas p.before).length = p.start := by
  rw [List.length_append, List.length_cons, start]
  omega

/-- A part begins behind a bracket or a comma. -/
theorem Malformed.ahead (h : p.Malformed source t code) (hs : isUtf8 source = true) :
    Ahead source (p.part ++ p.more) := by
  have hsource := h.source_eq.trans p.source_eq_part
  obtain hnil | ⟨qs, q, hq⟩ := List.eq_nil_or_concat p.before
  · rw [hnil] at hsource
    refine (ahead_of_ascii (b := ascii '(') (by decide) hs ⟨p.front, ?_⟩).2
    rw [hsource]
    simp [withCommas]
  · rw [hq] at hsource
    refine (ahead_of_ascii (b := ascii ',') (by decide) hs
      ⟨p.front ++ ascii '(' :: (withCommas qs ++ q), ?_⟩).2
    rw [hsource]
    simp [withCommas]

/-- The code of a part begins between two characters. -/
theorem Malformed.isPlace (h : p.Malformed source t code) (hs : isUtf8 source = true) : IsPlace source p.codeStart := by
  obtain ⟨hmargin, hbegins⟩ := (h.margin_iff _ _).2 ⟨rfl, rfl⟩
  have hown := hmargin.ahead hbegins.ne_nil (h.ahead hs)
  have hoffset : Scan.offsetOf source (p.own ++ p.more) = p.codeStart := by
    have hlength := congrArg List.length (h.source_eq.trans p.source_eq_part)
    have hle := hmargin.suffix.length_le
    rw [List.length_append, p.length_front, List.length_append] at hlength
    unfold Scan.offsetOf codeStart
    rw [List.length_append]
    omega
  rw [← hoffset]
  exact ⟨Ahead.offsetOf_le _ _, hown.isBoundary⟩

theorem Malformed.reported {offset : Nat} (h : p.Malformed source t code) (hs : isUtf8 source = true)
    (hoffset : offset + Scan.lostBytes p.comments = p.codeStart) :
    p.Reported source offset (.locate source offset) := by
  obtain ⟨hmargin, -⟩ := (h.margin_iff _ _).2 ⟨rfl, rfl⟩
  refine ⟨rfl, hoffset, ?_, h.isPlace hs⟩
  rw [← hmargin.lostBytes_eq_zero_iff]
  omega

end ListedPart

/-! ## Where reading a list fails -/

variable {code : Text} {left place : Nat}

theorem parameterIn_eq_error {part : Text} (h : parameterIn left part = .error (.atParameter code place)) :
    ∃ stripped, Scan.strip part = .ok stripped ∧ isSpace stripped.code = false ∧ parameter? stripped.code = none ∧
      trim stripped.code = code ∧ place = left - (stripped.code.length - (trimStart stripped.code).length) := by
  obtain ⟨stripped, hstrip, h⟩ := (Read.failsElsewhere_ofScan _ _).exists_of_bind h
  refine ⟨stripped, Read.ofScan_eq_ok.1 hstrip, ?_⟩
  dsimp only at h
  split at h
  · cases h
  · next hspace =>
    split at h
    · cases h
    · next hnone =>
      cases h
      exact ⟨Bool.eq_false_iff.2 hspace, hnone, rfl, rfl⟩

/-- The parts in front of the one at which reading fails are parameters. -/
theorem addParts_eq_error {m : Method} {ps : List Text} (h : addParts m left ps = .error (.atParameter code place)) :
    ∃ before part after vs, ps = before ++ part :: after ∧ Listed before vs ∧
      parameterIn (left - (withCommas before).length) part = .error (.atParameter code place) := by
  induction ps generalizing m left with
  | nil => cases h
  | cons part ps ih =>
    rw [addParts] at h
    rcases bind_eq_error.1 h with hpart | ⟨o, ho, h⟩
    · exact ⟨[], part, ps, [], rfl, .nil, hpart⟩
    · have hmore : ∃ n, addParts n (left - (part.length + 1)) ps = .error (.atParameter code place) := by
        cases o with
        | none => exact ⟨m, h⟩
        | some v =>
          obtain ⟨n, -, h⟩ := (Read.failsElsewhere_ofUnique _).exists_of_bind h
          exact ⟨n, h⟩
      obtain ⟨n, hmore⟩ := hmore
      obtain ⟨before, last, after, vs, rfl, hvs, hlast⟩ := ih hmore
      rw [Nat.sub_sub, ← length_withCommas_cons] at hlast
      obtain ⟨bare, k, hstrip, ⟨hspace, -⟩ | ⟨hspace, v, hv, -⟩⟩ := parameterIn_eq_ok.1 ho
      · exact ⟨part :: before, last, after, vs, rfl, .blank hstrip hspace hvs, hlast⟩
      · exact ⟨part :: before, last, after, v :: vs, rfl, .cons hstrip hspace hv hvs, hlast⟩

theorem addParameterList_eq_error {t list behind : Text} {m : Method} (hlist : parameterList t = .ok (list, behind))
    (h : addParameterList m (Scan.insideBrackets list) (behind.length + 1) = .error (.atParameter code place)) :
    ∃ before part after vs, list = Scan.inBrackets (join [ascii ','] (before ++ part :: after)) ∧
      Scan.Splits (join [ascii ','] (before ++ part :: after)) (before ++ part :: after) ∧ Listed before vs ∧
      (∃ ks, part = Scan.code ks ∧ Scan.Lexes ks []) ∧
      parameterIn ((join [ascii ','] (before ++ part :: after)).length + (behind.length + 1) -
        (withCommas before).length) part = .error (.atParameter code place) := by
  unfold parameterList at hlist
  split at hlist
  · next hopen =>
    obtain ⟨o, c, ks, hc, rfl, rfl, hks, -⟩ := Scan.bracketed_eq_ok.1 (Read.ofScan_eq_ok.1 hlist)
    cases hopen
    cases hc
    rw [Scan.insideBrackets_cons_concat, addParameterList, Scan.split_code hks.alone] at h
    obtain ⟨ps, hps, h⟩ := (Read.failsElsewhere_ofScan _ _).exists_of_bind h
    cases hps
    obtain ⟨before, part, after, vs, hparts, hvs, hpart⟩ := addParts_eq_error h
    obtain ⟨-, hjoin⟩ := Scan.splitFirst_join (Scan.split_code hks.alone)
    rw [List.take_length, hparts] at hjoin
    have hmem : part ∈ (Scan.parts 0 ks).map Scan.code := by
      rw [hparts]
      exact List.mem_append_right _ List.mem_cons_self
    obtain ⟨js, hjs, rfl⟩ := List.mem_map.1 hmem
    refine ⟨before, _, after, vs, ?_, ?_, hvs, ⟨js, rfl, Scan.lexes_of_mem_parts hks hjs⟩, ?_⟩
    · rw [hjoin]
      rfl
    · rw [hjoin, ← hparts]
      exact Scan.splits_code hks.alone
    · rwa [hjoin]
  · cases hlist

/-- A failure in a list is reported at the place of the code, but for the bytes that are lost in front of it. -/
theorem FailsInList.exists_malformed {source t list behind : Text} (h : FailsInList t code place list behind)
    (ht : t <:+ source) : ∃ p : ListedPart, p.Malformed source t code ∧
      source.length - place + Scan.lostBytes p.comments = p.codeStart := by
  obtain ⟨c, ms, name, rest, hreads, hlist, hadd⟩ := h
  obtain ⟨before, part, after, vs, rfl, hsplits, hvs, hcode, hpart⟩ := addParameterList_eq_error hlist hadd
  obtain ⟨stripped, hstrip, hspace, hnone, htrim, rfl⟩ := parameterIn_eq_error hpart
  obtain ⟨cs, own, hmargin, hbegins, hlength⟩ := Scan.exists_margin hstrip hcode hspace
  obtain ⟨-, hrest, -⟩ := parameterList_local hlist
  obtain ⟨front, hfront⟩ := hreads.suffix.trans ht
  rw [hrest] at hfront
  have hsource := hfront.symm
  refine ⟨⟨front, before, part, cs, own, after, behind⟩, ⟨hsource, ht, ⟨c, ms, name, rest, hreads, hlist⟩, hsplits,
    ⟨vs, hvs⟩, ⟨stripped, hstrip, hnone, htrim⟩, hmargin.iff hbegins⟩, ?_⟩
  have hjoin := congrArg List.length (join_append_cons before part after)
  have hle := hmargin.suffix.length_le
  rw [List.length_append, List.length_append] at hjoin
  rw [hsource]
  simp only [ListedPart.codeStart, ListedPart.start, Scan.inBrackets, List.length_append, List.length_cons,
    List.length_nil]
  omega

/-! ## Reported places -/

theorem inSource_eq_parameter {α : Type} {x : Read α} {source : Text} {offset : Nat} {position : Position}
    (h : x.mapError (Failure.inSource source) = .error (.malformed (.parameter code) offset position)) :
    ∃ left, x = .error (.atParameter code left) ∧ offset = source.length - left ∧ position = .locate source offset := by
  cases x with
  | ok a => cases h
  | error e =>
    cases e with
    | noOpenTag => cases h
    | duplicate d => cases h
    | malformed fault =>
      obtain ⟨cause, left⟩ := fault
      cases h
      exact ⟨left, rfl, rfl, rfl⟩

/-- **A malformed parameter is reported at the place of its code exactly if no comment stands in front of it.** With
comments there, the place is too small by all but one byte of each. -/
theorem malformed_parameter_place {source code : Text} {offset : Nat} {place : Position} (hs : isUtf8 source = true) :
    (Member.parse source = .error (.malformed (.parameter code) offset place) →
      ∃ p : ListedPart, p.Malformed source source code ∧ p.Reported source offset place) ∧
    (ClassFile.parse source = .error (.malformed (.parameter code) offset place) →
      ∃ t, BodyTo source t ∧ ∃ p : ListedPart, p.Malformed source t code ∧ p.Reported source offset place) := by
  constructor
  · intro h
    obtain ⟨left, hread, rfl, rfl⟩ := inSource_eq_parameter h
    obtain ⟨list, behind, hlist⟩ := exists_list_of_onlyMember hread
    obtain ⟨p, hp, hoffset⟩ := hlist.exists_malformed List.suffix_rfl
    exact ⟨p, hp, hp.reported hs hoffset⟩
  · intro h
    obtain ⟨left, hread, rfl, rfl⟩ := inSource_eq_parameter h
    obtain ⟨t, list, behind, ht, hlist⟩ := exists_list_of_source hread
    obtain ⟨p, hp, hoffset⟩ := hlist.exists_malformed ht.suffix
    exact ⟨t, ht, p, hp, hp.reported hs hoffset⟩

/-- A snippet with no comment in its list, and the second parameter of a method in a class, with a comment in front of
it. -/
theorem malformed_parameter_place_int :
    let snippet := utf8 "function f( int);"
    let source := utf8 "<?php\nnamespace A;\nclass C \x7b\n  function f($a, /* b */ int) \x7b\x7d\n\x7d"
    (isUtf8 snippet = true ∧ isUtf8 source = true) ∧
      (Member.parse snippet = .error (.malformed (.parameter (utf8 "int")) 12 ⟨1, 13⟩) ∧
        ∃ p : ListedPart, p.Malformed snippet snippet (utf8 "int") ∧ p.Reported snippet 12 ⟨1, 13⟩) ∧
      ClassFile.parse source = .error (.malformed (.parameter (utf8 "int")) 48 ⟨4, 20⟩) ∧
        ∃ t, BodyTo source t ∧ ∃ p : ListedPart, p.Malformed source t (utf8 "int") ∧ p.Reported source 48 ⟨4, 20⟩ := by
  intro snippet source
  have hsnippet : isUtf8 snippet = true := by decide +kernel
  have hsource : isUtf8 source = true := by decide +kernel
  have hmember : Member.parse snippet = .error (.malformed (.parameter (utf8 "int")) 12 ⟨1, 13⟩) := by decide +kernel
  have hfile : ClassFile.parse source = .error (.malformed (.parameter (utf8 "int")) 48 ⟨4, 20⟩) := by decide +kernel
  obtain ⟨hfound, -⟩ := malformed_parameter_place hsnippet
  obtain ⟨-, hfoundInFile⟩ := malformed_parameter_place hsource
  exact ⟨⟨hsnippet, hsource⟩, ⟨hmember, hfound hmember⟩, hfile, hfoundInFile hfile⟩

/-- The place of a parameter behind a comment and two spaces is reported five bytes too small, and so inside the
comment, between the two bytes of its letter. -/
theorem malformed_parameter_inside_character :
    ∃ p : ListedPart, p.Malformed (utf8 "function f(/*é*/  int);") (utf8 "function f(/*é*/  int);") (utf8 "int") ∧
      Member.parse (utf8 "function f(/*é*/  int);") = .error (.malformed (.parameter (utf8 "int")) 14 ⟨1, 15⟩) ∧
      p.codeStart = 19 ∧ ¬IsPlace (utf8 "function f(/*é*/  int);") 14 := by
  let p : ListedPart := {
    front := utf8 "function f"
    before := []
    part := utf8 "/*é*/  int"
    comments := [utf8 "/*é*/"]
    own := utf8 "int"
    after := []
    behind := utf8 ";"
  }
  have hmethod : HasParameterList (utf8 "function f(/*é*/  int);") p.list p.behind := by
    refine ⟨none, {}, utf8 "f", utf8 "(/*é*/  int);", ?_, by decide +kernel⟩
    exact ⟨utf8 "function f(/*é*/  int);", utf8 " f(/*é*/  int);", utf8 "(/*é*/  int);", by decide +kernel,
      by decide +kernel, by decide +kernel, by decide +kernel⟩
  have hsplits : Scan.Splits p.list [p.part] := Scan.splits_of_split (by decide +kernel)
  have hmargin : Scan.MarginTo p.part p.comments p.own := by
    have hcomment : Scan.IsComment (utf8 "/*é*/") (utf8 "é") (utf8 "  int") := .block (by decide +kernel)
    have hspace : SpaceTable.forward.IsCharacter [Byte.space] := .one (by decide)
    exact .comment hcomment (.space hspace (.space hspace .nil))
  have hbegins : Scan.BeginsCode p.own := ⟨by decide, by decide, by unfold Scan.BeginsComment; decide +kernel⟩
  refine ⟨p, ⟨by decide +kernel, List.suffix_rfl, hmethod, hsplits, ⟨[], .nil⟩, ?_, hmargin.iff hbegins⟩,
    by decide +kernel, by decide +kernel, by decide +kernel⟩
  exact ⟨⟨utf8 "   int", 1⟩, by decide +kernel, by decide +kernel, by decide +kernel⟩

end Grammar

end PhpClass
