import PhpClass.Proofs.Account
import PhpClass.Proofs.Lines

/-!
# Comments behind a class name

Between the name of a class and the brace that opens its body stand the words of its clauses, and behind each
word a gap (`HeaderTail`). The comments of these gaps belong to the class or to the extended class and are all
written in front of the class, except for those on the line of a name, of a comma or of the brace. Of these at
most one is written: the first that is visible, those behind the extended class coming last
(`ClassFile.exists_headerTail`).
-/

namespace PhpClass

open Text

namespace Comment

/-! ## Comments that are shown -/

/-- What is visible of each line of the comment stands in the text. -/
def ShownIn (t c : Text) : Prop := ∀ line ∈ c.lines, trim line <:+: t

theorem ShownIn.mono {t u c : Text} (h : ShownIn t c) (htu : t <:+: u) : ShownIn u c :=
  fun line hline => (h line hline).trans htu

theorem trim_isInfix (t : Text) : trim t <:+: t := by
  obtain ⟨w₁, w₂, ht, -, -⟩ := exists_trim t
  exact ⟨w₁, w₂, ht.symm⟩

theorem shownIn_of_isInfix {t c : Text} (h : c <:+: t) : ShownIn t c :=
  fun line hline => (trim_isInfix line).trans ((isInfix_of_mem_lines hline).trans h)

/-- Of white space nothing is visible. -/
theorem shownIn_of_isSpace {c : Text} (h : isSpace c = true) (t : Text) : ShownIn t c := by
  intro line hline
  rw [trim_eq_nil_iff.2 (isSpace_of_mem_lines h hline)]
  exact List.nil_infix

/-- A comment on one line is shown where what is visible of it stands. -/
theorem shownIn_of_inLine {t c : Text} (hc : Within Scan.isInLine c) (h : trim c <:+: t) : ShownIn t c := by
  intro line hline
  have hpieces : pieces c = [c] := by
    refine List.splitOn_eq_singleton fun hm => ?_
    exact absurd (hc _ hm) (by decide)
  obtain ⟨p, hp, he⟩ := mem_lines hline
  rw [hpieces, List.mem_singleton] at hp
  subst hp
  rcases he with rfl | rfl
  · exact h
  · exact absurd (hc _ (List.mem_append_right _ List.mem_cons_self)) (by decide)

theorem getLast?_trim (t : Text) : (trim t).getLast? ≠ some Byte.carriageReturn := by
  intro h
  have hs := starts_reverse_trim t
  obtain ⟨u, hu⟩ := List.getLast?_eq_some_iff.1 h
  rw [hu, List.reverse_append] at hs
  have hstarts := SpaceTable.starts_append (s := SpaceTable.backward) (t := [Byte.carriageReturn])
    (by decide) u.reverse
  rw [List.reverse_singleton, hstarts] at hs
  cases hs

theorem isShown_trim {c : Text} (hc : Within Scan.isInLine c) (hne : trim c ≠ []) : IsShown (trim c) where
  trim := trim_trim c
  ne_nil := hne
  inLine := fun b hb => hc b ((trim_isInfix c).subset hb)

/-- What a comment in front of an element shows is shown by what is written of it. -/
theorem shownIn_leading {t c : Text} (h : ShownIn t c) (level : Nat) :
    ShownIn (Layout.standard.render (leading level t)) c := by
  cases hh : holds (utf8 "*/") t with
  | false =>
    refine h.mono ?_
    rw [render_leading_block hh]
    refine List.infix_append_of_infix_right (List.infix_append_of_infix_right ?_)
    exact (List.prefix_append t _).isInfix
  | true =>
    intro line hline
    by_cases hne : trim line = []
    · rw [hne]
      exact List.nil_infix
    have hf : Byte.lineFeed ∉ trim line := fun hm =>
      lineFeed_of_mem_lines hline ((trim_isInfix line).subset hm)
    obtain ⟨l, hl, hin⟩ := exists_line_of_isInfix hf hne (getLast?_trim line) (h line hline)
    refine hin.trans ?_
    rw [render_leading_lines hh]
    exact isInfix_lineByLine_of_mem hl level

/-- The comment is shown by what is kept, if there is anything to show. -/
def KeptIn (o : Option Text) (c : Text) : Prop := isSpace c = true ∨ ∃ t ∈ o, ShownIn t c

theorem keptIn_kept {cs : List Text} {c : Text} (h : c ∈ cs) : KeptIn (Scan.kept (join newline cs)) c := by
  cases hs : isSpace (join newline cs) with
  | true => exact .inl (isSpace_join_iff.1 hs c h)
  | false => exact .inr ⟨_, Scan.kept_eq_some.2 ⟨rfl, hs⟩, shownIn_of_isInfix (isInfix_join_of_mem h)⟩

theorem keptIn_joinComments? {os : List (Option Text)} {o : Option Text} {c : Text} (ho : o ∈ os)
    (h : KeptIn o c) : KeptIn (joinComments? os) c := by
  rcases h with h | ⟨t, rfl, ht⟩
  · exact .inl h
  · have hmem : t ∈ os.filterMap id := List.mem_filterMap.2 ⟨some t, ho, rfl⟩
    refine .inr ⟨join newline (os.filterMap id), ?_, ht.mono (isInfix_join_of_mem hmem)⟩
    unfold joinComments?
    split
    · next hnil =>
      rw [hnil] at hmem
      cases hmem
    · rfl

theorem shownIn_before {o : Option Text} {c : Text} (h : KeptIn o c) (level : Nat) :
    ShownIn (Layout.standard.render (before level o)) c := by
  rcases h with h | ⟨t, rfl, ht⟩
  · exact shownIn_of_isSpace h _
  · exact shownIn_leading ht level

end Comment

/-! ## The words behind a class name -/

/-- What becomes of a line comment behind a word. -/
inductive Place where
  /-- The word is a keyword, and the comment is like those on other lines. -/
  | keyword
  /-- The word is the name of the class, of an interface or a comma, and the comment may be that of the class. -/
  | name
  /-- The word is the name of the extended class, and the comment may be that of this class. -/
  | parent
  deriving DecidableEq, Repr

/-- A word behind the name of a class, or this name, and the gap behind it. -/
structure HeaderWord where
  place : Place
  word : Text
  gap : Text
  /-- The interior of the comment on the line of the word. -/
  line : Option Text
  /-- The interiors of the other comments, in their order. -/
  others : List Text
  reads : if place = .keyword then line = none ∧ Scan.IsGap gap others else Scan.ReadsBetween gap line others

namespace HeaderWord

def text (w : HeaderWord) : Text := w.word ++ w.gap

def key (w : HeaderWord) : Place × Text := (w.place, w.word)

/-- The comment on the line of a word in this place. -/
def lineAt (p : Place) (w : HeaderWord) : Option Text := if w.place = p then w.line else none

end HeaderWord

/-- The words of an `extends` clause. -/
def extendsWords (parent : Option Text) : List (Place × Text) :=
  parent.elim [] fun name => [(.keyword, utf8 "extends"), (.parent, name)]

/-- The words of an `implements` clause. -/
def implementsWords (interfaces : List Text) : List (Place × Text) :=
  if interfaces = [] then []
  else (.keyword, utf8 "implements") :: (interfaces.map (Place.name, ·)).intersperse (.name, utf8 ",")

/-- The name of the class and the words of its clauses. -/
def ClassFile.tailWords (f : ClassFile) : List (Place × Text) :=
  (.name, f.className) :: (extendsWords f.parentName? ++ implementsWords f.interfaces)

/-- A header from the name of the class up to the line comment behind the brace. -/
structure HeaderTail where
  words : List HeaderWord
  brace : Option Text

namespace HeaderTail

/-- The comments on the line of a name, a comma or the brace, in the order in which one is chosen. -/
def onLine (h : HeaderTail) : List Text :=
  h.words.filterMap (HeaderWord.lineAt .name) ++ h.brace.toList ++ h.words.filterMap (HeaderWord.lineAt .parent)

/-- The other comments. -/
def others (h : HeaderTail) : List Text := h.words.flatMap HeaderWord.others

end HeaderTail

/-- The text from the name of the class on, behind an open tag. -/
def Grammar.fromClassName (t : Text) : Read Text := do
  let (_, rest) ← namespaceName t
  let (_, _, rest) ← imports rest
  let rest ← classWord (classKind rest).2
  return skipBlanks rest

/-- The header stands in the source, and its words are those of the class. -/
structure HeaderTail.StandsIn (h : HeaderTail) (t : Text) (f : ClassFile) : Prop where
  keys : h.words.map HeaderWord.key = f.tailWords
  text : ∃ r more, beyond? (utf8 "<?php") t = some r ∧
    Grammar.fromClassName r = .ok (h.words.flatMap HeaderWord.text ++ Byte.openBrace :: more) ∧
    (Scan.lineComment more).1 = h.brace

namespace Grammar

/-- Words behind a gap with these comments. -/
structure Words (t : Text) (cs : List Text) (ws : List HeaderWord) (rest : Text) : Prop where
  exists_gap : ∃ g, t = g ++ (ws.flatMap HeaderWord.text ++ rest) ∧ Scan.IsGap g cs
  gapEnd : Scan.GapEnd (ws.flatMap HeaderWord.text ++ rest)

variable {t r rest word : Text} {c : Option Text} {cs : List Text} {ws : List HeaderWord}

theorem exists_words (h : comment t = .ok (c, ws.flatMap HeaderWord.text ++ rest)) (hne : rest ≠ []) :
    ∃ cs, Words t cs ws rest ∧ ∀ x ∈ cs, Comment.KeptIn c x := by
  obtain ⟨hend, g, cs, rfl, hg, rfl⟩ := exists_gap h (by simp [hne])
  exact ⟨cs, ⟨⟨g, rfl, hg⟩, hend⟩, fun x hx => Comment.keptIn_kept hx⟩

/-- A keyword in front of a gap and words behind that. -/
theorem Words.exists_keyword (h : Words r cs ws rest) (word : Text) :
    ∃ w : HeaderWord, w.key = (.keyword, word) ∧ w.line = none ∧ w.others = cs ∧
      word ++ r = (w :: ws).flatMap HeaderWord.text ++ rest := by
  obtain ⟨⟨g, rfl, hg⟩, -⟩ := h
  exact ⟨⟨.keyword, word, g, none, cs, ⟨rfl, hg⟩⟩, rfl, rfl, rfl, by simp [HeaderWord.text]⟩

/-- A name or a comma, the line comment behind it, and a gap and words behind that. -/
theorem Words.exists_name {p : Place} (h : Words (Scan.trailing r).2 cs ws rest) (hp : p ≠ .keyword)
    (hne : rest ≠ []) (word : Text) :
    ∃ w : HeaderWord, w.key = (p, word) ∧ w.line.bind visible? = (Scan.trailing r).1 ∧ w.others = cs ∧
      word ++ r = (w :: ws).flatMap HeaderWord.text ++ rest := by
  obtain ⟨⟨g, hr, hg⟩, hend⟩ := h
  obtain ⟨pre, hpre⟩ := Scan.lineComment_suffix r
  have hrest : (Scan.lineComment r).2 = g ++ (ws.flatMap HeaderWord.text ++ rest) := hr
  have hline : Scan.lineComment (pre ++ (g ++ (ws.flatMap HeaderWord.text ++ rest))) =
      ((Scan.lineComment r).1, g ++ (ws.flatMap HeaderWord.text ++ rest)) := by
    rw [← hrest, hpre]
  have hreads := Scan.readsBetween_of_lineComment hline hg hend (by simp [hne])
  have htext : word ++ r = word ++ (pre ++ g) ++ ws.flatMap HeaderWord.text ++ rest := by
    rw [← hpre, hrest]
    simp
  exact ⟨⟨p, word, pre ++ g, (Scan.lineComment r).1, cs, by rwa [if_neg hp]⟩, rfl, rfl, rfl, htext⟩

/-! ## Interfaces -/

theorem interfaceName_eq_ok {i : Interfaces} (h : interfaceName t = .ok (i, rest)) :
    ∃ n before behind r, comment t = .ok (before, n ++ r) ∧
      comment (Scan.trailing r).2 = .ok (behind, rest) ∧
      i = ⟨[n], [before, behind], [(Scan.trailing r).1]⟩ := by
  obtain ⟨⟨before, r₁⟩, hb, h⟩ := bind_eq_ok.1 h
  obtain ⟨⟨n, r⟩, hn, h⟩ := bind_eq_ok.1 h
  obtain ⟨⟨behind, r₃⟩, ha, h⟩ := bind_eq_ok.1 h
  cases h
  obtain ⟨rfl, -, -⟩ := name_eq_ok hn
  exact ⟨n, before, behind, r, hb, ha, rfl⟩

/-- An interface with the gap in front of it. -/
theorem exists_interface {i : Interfaces}
    (h : interfaceName t = .ok (i, ws.flatMap HeaderWord.text ++ rest)) (hne : rest ≠ []) :
    ∃ cs w n, Words t cs (w :: ws) rest ∧ w.key = (.name, n) ∧ i.names = [n] ∧
      i.trailing = [w.line.bind visible?] ∧ ∀ x ∈ cs ++ w.others, ∃ o ∈ i.comments, Comment.KeptIn o x := by
  obtain ⟨n, before, behind, r, hb, ha, rfl⟩ := interfaceName_eq_ok h
  obtain ⟨cs, hcs, hkept⟩ := exists_words ha hne
  obtain ⟨w, hkey, hline, rfl, htext⟩ := hcs.exists_name (p := .name) (by decide) hne n
  rw [htext] at hb
  obtain ⟨cs₀, hcs₀, hkept₀⟩ := exists_words hb hne
  refine ⟨cs₀, w, n, hcs₀, hkey, rfl, by rw [hline], fun x hx => ?_⟩
  rcases List.mem_append.1 hx with hx | hx
  · exact ⟨before, by simp, hkept₀ x hx⟩
  · exact ⟨behind, by simp, hkept x hx⟩

/-- Interfaces with the words that they are read from. -/
structure ReadInterfaces (i : Interfaces) (t rest : Text) (cs : List Text) (ws : List HeaderWord) : Prop where
  words : Words t cs ws rest
  names : i.names ≠ []
  keys : ws.map HeaderWord.key = (i.names.map (Place.name, ·)).intersperse (.name, utf8 ",")
  places : ∀ w ∈ ws, w.place = .name
  trailing : ws.map (fun w => w.line.bind visible?) = i.trailing
  comments : ∀ x ∈ cs ++ ws.flatMap HeaderWord.others, ∃ o ∈ i.comments, Comment.KeptIn o x

theorem exists_readInterfaces {i : Interfaces} (h : interfaces t = .ok (i, rest)) (hne : rest ≠ []) :
    ∃ cs ws, ReadInterfaces i t rest cs ws := by
  fun_induction interfaces t generalizing i rest with
  | case1 => cases h
  | case2 t j r hj hn =>
    cases h
    have hlast : interfaceName t = .ok (j, List.flatMap HeaderWord.text [] ++ r) := hj
    obtain ⟨cs, w, n, hw, hkey, hnames, htrailing, hkept⟩ := exists_interface hlast hne
    refine ⟨cs, [w], hw, by simp [hnames], by simp [hnames, hkey], ?_, htrailing.symm, fun x hx => ?_⟩
    · exact List.forall_mem_singleton.2 (congrArg Prod.fst hkey)
    · exact hkept x (by simpa using hx)
  | case3 t j r hj behind hb comma =>
    rename_i ih
    obtain ⟨⟨more, last⟩, hmore, h⟩ := bind_eq_ok.1 h
    cases h
    obtain ⟨cs, ws, hws⟩ := ih hmore hne
    obtain ⟨w, hkey, hline, hothers, htext⟩ := hws.words.exists_name (p := .name) (by decide) hne (utf8 ",")
    rw [after?_eq_some.1 hb, htext] at hj
    obtain ⟨cs₀, w₀, n, hw₀, hkey₀, hnames, htrailing, hkept⟩ := exists_interface hj hne
    refine ⟨cs₀, w₀ :: w :: ws, hw₀, by simp [Interfaces.append, hnames], ?_, ?_, ?_, fun x hx => ?_⟩
    · obtain ⟨m, ms, hms⟩ := List.exists_cons_of_ne_nil hws.names
      have hkeys := hws.keys
      rw [hms] at hkeys
      simp [Interfaces.append, comma, hnames, hms, hkey, hkey₀, hkeys]
    · exact List.forall_mem_cons.2 ⟨congrArg Prod.fst hkey₀,
        List.forall_mem_cons.2 ⟨congrArg Prod.fst hkey, hws.places⟩⟩
    · simp [Interfaces.append, comma, htrailing, hline, hws.trailing]
    · have hx : x ∈ cs₀ ++ w₀.others ∨ x ∈ cs ++ ws.flatMap HeaderWord.others := by
        simpa [hothers, or_assoc] using hx
      rcases hx with hx | hx
      · obtain ⟨o, ho, hox⟩ := hkept x hx
        exact ⟨o, by simp [Interfaces.append, ho], hox⟩
      · obtain ⟨o, ho, hox⟩ := hws.comments x hx
        exact ⟨o, by simp [Interfaces.append, ho], hox⟩

end Grammar

namespace HeaderWord

theorem lineAt_of_key {w : HeaderWord} {p : Place} {word : Text} (h : w.key = (p, word)) (q : Place) :
    w.lineAt q = if p = q then w.line else none := by
  have hp : w.place = p := congrArg Prod.fst h
  unfold lineAt
  rw [hp]

theorem findSome?_lineAt {ws : List HeaderWord} {p : Place} (h : ∀ w ∈ ws, w.place = p) :
    (ws.filterMap (lineAt p)).findSome? visible? = (ws.map fun w => w.line.bind visible?).findSome? id := by
  induction ws with
  | nil => rfl
  | cons w ws ih =>
    rw [List.forall_mem_cons] at h
    have hw : w.lineAt p = w.line := if_pos h.1
    rw [List.filterMap_cons, hw, List.map_cons, List.findSome?_cons, ← ih h.2]
    cases w.line with
    | none => rfl
    | some c => rfl

theorem findSome?_lineAt_singleton {w : HeaderWord} {p : Place} {word : Text} (h : w.key = (p, word)) :
    ([w].filterMap (lineAt p)).findSome? visible? = w.line.bind visible? := by
  have hplace : ∀ v ∈ [w], v.place = p := List.forall_mem_singleton.2 (congrArg Prod.fst h)
  rw [findSome?_lineAt hplace, List.map_singleton]
  simp

theorem filterMap_lineAt {ws : List HeaderWord} {p q : Place} (h : ∀ w ∈ ws, w.place = p) (hpq : p ≠ q) :
    ws.filterMap (lineAt q) = [] := by
  refine List.filterMap_eq_nil_iff.2 fun w hw => if_neg ?_
  rw [h w hw]
  exact hpq

end HeaderWord

namespace Grammar

variable {t r rest : Text} {c : Option Text} {us : List HeaderWord}

theorem exists_implementsWords {i : Interfaces} (h : implementsClause t = .ok (i, rest)) (hne : rest ≠ []) :
    ∃ ws : List HeaderWord, t = ws.flatMap HeaderWord.text ++ rest ∧
      ws.map HeaderWord.key = implementsWords i.names ∧
      ws.filterMap (HeaderWord.lineAt .parent) = [] ∧
      (ws.filterMap (HeaderWord.lineAt .name)).findSome? visible? = i.trailing.findSome? id ∧
      ∀ x ∈ ws.flatMap HeaderWord.others, ∃ o ∈ i.comments, Comment.KeptIn o x := by
  unfold implementsClause at h
  split at h
  · next r hk =>
    obtain ⟨cs, ws, hws⟩ := exists_readInterfaces h hne
    obtain ⟨w, hkey, hline, hothers, htext⟩ := hws.words.exists_keyword (utf8 "implements")
    refine ⟨w :: ws, (keyword?_eq_append hk).trans htext, ?_, ?_, ?_, fun x hx => ?_⟩
    · rw [List.map_cons, hkey, hws.keys, implementsWords, if_neg hws.names]
    · rw [List.filterMap_cons, HeaderWord.lineAt_of_key hkey, if_neg (by decide),
        HeaderWord.filterMap_lineAt hws.places (by decide)]
    · rw [List.filterMap_cons, HeaderWord.lineAt_of_key hkey, if_neg (by decide),
        HeaderWord.findSome?_lineAt hws.places, hws.trailing]
    · exact hws.comments x (by simpa [hothers] using hx)
  · cases h
    exact ⟨[], rfl, rfl, rfl, rfl, by simp⟩

/-! ## The extended class -/

theorem exists_parentName {before : Option Text} {e : Element Text} (h : parentName before t = .ok (e, rest)) :
    ∃ behind r, comment t = .ok (behind, e.payload ++ r) ∧ rest = (Scan.trailing r).2 ∧
      e = ⟨e.payload, joinComments? [before, behind], (Scan.trailing r).1⟩ := by
  obtain ⟨⟨behind, r₁⟩, hb, h⟩ := bind_eq_ok.1 h
  obtain ⟨⟨n, r⟩, hn, h⟩ := bind_eq_ok.1 h
  cases h
  obtain ⟨rfl, -, -⟩ := name_eq_ok hn
  exact ⟨behind, r, hb, rfl, rfl⟩

theorem exists_extendsWords {parent : Option (Element Text)}
    (h : extendsClause t = .ok ((parent, c), us.flatMap HeaderWord.text ++ rest)) (hne : rest ≠ []) :
    ∃ cs ws, Words t cs (ws ++ us) rest ∧ ws.map HeaderWord.key = extendsWords (parent.map Element.payload) ∧
      ws.filterMap (HeaderWord.lineAt .name) = [] ∧
      (ws.filterMap (HeaderWord.lineAt .parent)).findSome? visible? = parent.bind Element.trailingComment ∧
      ∀ x ∈ cs ++ ws.flatMap HeaderWord.others,
        Comment.KeptIn (parent.bind Element.commentBefore) x ∨ Comment.KeptIn c x := by
  obtain ⟨⟨before, r₁⟩, hb, h⟩ := bind_eq_ok.1 h
  dsimp only at h
  split at h
  · next r₂ hk =>
    obtain ⟨⟨p, r₃⟩, hp, h⟩ := bind_eq_ok.1 h
    obtain ⟨⟨behind, r₄⟩, hc, h⟩ := bind_eq_ok.1 h
    cases h
    obtain ⟨between, r, hbetween, rfl, hparent⟩ := exists_parentName hp
    obtain ⟨cs₁, hcs₁, hkept₁⟩ := exists_words hc hne
    obtain ⟨w, hkey, hline, hothers, htext⟩ := hcs₁.exists_name (p := .parent) (by decide) hne p.payload
    rw [htext] at hbetween
    obtain ⟨cs₂, hcs₂, hkept₂⟩ := exists_words hbetween hne
    obtain ⟨w₀, hkey₀, hline₀, hothers₀, htext₀⟩ := hcs₂.exists_keyword (utf8 "extends")
    rw [keyword?_eq_append hk, htext₀] at hb
    obtain ⟨cs, hcs, hkept⟩ := exists_words hb hne
    have hcomment : p.commentBefore = joinComments? [before, between] := by rw [hparent]
    have htrailing : p.trailingComment = (Scan.trailing r).1 := by rw [hparent]
    refine ⟨cs, [w₀, w], hcs, by simp [extendsWords, hkey, hkey₀], ?_, ?_, fun x hx => ?_⟩
    · simp [HeaderWord.lineAt_of_key hkey, HeaderWord.lineAt_of_key hkey₀]
    · rw [List.filterMap_cons, HeaderWord.lineAt_of_key hkey₀, if_neg (by decide)]
      dsimp only
      rw [HeaderWord.findSome?_lineAt_singleton hkey, hline, Option.bind_some, htrailing]
    · rw [Option.bind_some, hcomment]
      have hx : x ∈ cs ∨ x ∈ cs₂ ∨ x ∈ cs₁ := by simpa [hothers, hothers₀] using hx
      rcases hx with hx | hx | hx
      · exact .inl (Comment.keptIn_joinComments? List.mem_cons_self (hkept x hx))
      · exact .inl (Comment.keptIn_joinComments? (by simp) (hkept₂ x hx))
      · exact .inr (hkept₁ x hx)
  · cases h
    obtain ⟨cs, hcs, hkept⟩ := exists_words hb hne
    exact ⟨cs, [], hcs, rfl, rfl, rfl, fun x hx => .inr (hkept x (by simpa using hx))⟩

end Grammar

/-! ## The whole header -/

theorem Scan.inLine_lineComment (t : Text) : ∀ c ∈ (Scan.lineComment t).1, Within Scan.isInLine c := by
  intro c hc
  rcases hl : Scan.lineComment t with ⟨o, u⟩
  rw [hl] at hc
  cases hc
  obtain ⟨-, -, -, hin, -⟩ := Scan.lineComment_eq_some hl
  exact hin

theorem Scan.ReadsBetween.inLine {t : Text} {line : Option Text} {others : List Text}
    (h : Scan.ReadsBetween t line others) : ∀ c ∈ line, Within Scan.isInLine c := by
  cases h with
  | none => nofun
  | line _ hin =>
    rintro _ ⟨⟩
    exact hin

theorem HeaderWord.inLine (w : HeaderWord) : ∀ c ∈ w.line, Within Scan.isInLine c := by
  intro c hc
  have hreads := w.reads
  split at hreads
  · rw [hreads.1] at hc
    cases hc
  · exact hreads.inLine c hc

namespace HeaderTail

theorem inLine {h : HeaderTail} (hb : ∀ c ∈ h.brace, Within Scan.isInLine c) :
    ∀ c ∈ h.onLine, Within Scan.isInLine c := by
  have hword : ∀ p, ∀ c ∈ h.words.filterMap (HeaderWord.lineAt p), Within Scan.isInLine c := by
    intro p c hc
    obtain ⟨w, -, hw⟩ := List.mem_filterMap.1 hc
    unfold HeaderWord.lineAt at hw
    split at hw
    · exact w.inLine c hw
    · cases hw
  intro c hc
  rcases List.mem_append.1 hc with hc | hc
  · rcases List.mem_append.1 hc with hc | hc
    · exact hword .name c hc
    · exact hb c (Option.mem_toList.1 hc)
  · exact hword .parent c hc

/-- The comment that is chosen is that of the class, of an interface or a comma, of the brace or of the extended
class, whichever is visible first. -/
theorem findSome?_onLine {w : HeaderWord} {ws us : List HeaderWord} {word : Text} (hw : w.key = (.name, word))
    (hws : ws.filterMap (HeaderWord.lineAt .name) = []) (hus : us.filterMap (HeaderWord.lineAt .parent) = [])
    (brace : Option Text) : (HeaderTail.mk (w :: (ws ++ us)) brace).onLine.findSome? visible? =
      (((w.line.bind visible?).or ((us.filterMap (HeaderWord.lineAt .name)).findSome? visible?)).or
        (brace.bind visible?)).or ((ws.filterMap (HeaderWord.lineAt .parent)).findSome? visible?) := by
  have hparent : [w].filterMap (HeaderWord.lineAt .parent) = [] := by simp [HeaderWord.lineAt_of_key hw]
  have hbrace : brace.toList.findSome? visible? = brace.bind visible? := by cases brace <;> simp
  unfold onLine
  rw [← List.singleton_append]
  simp only [List.filterMap_append, List.findSome?_append, hws, hus, hparent, List.findSome?_nil, hbrace,
    HeaderWord.findSome?_lineAt_singleton hw, Option.none_or, Option.or_none]

end HeaderTail

namespace Grammar

/-- The words and gaps that a header is read from, and what is kept of the comments. -/
theorem exists_tail {t rest : Text} {f : ClassFile} (h : header t = .ok (f, rest)) : ∃ tail : HeaderTail,
    tail.words.map HeaderWord.key = f.tailWords ∧
    (∃ more, fromClassName t = .ok (tail.words.flatMap HeaderWord.text ++ Byte.openBrace :: more) ∧
      (Scan.lineComment more).1 = tail.brace) ∧
    f.headerTrailing = tail.onLine.findSome? visible? ∧
    ∀ c ∈ tail.others, Comment.KeptIn f.headerComment c := by
  obtain ⟨⟨space, r₁⟩, hn, h⟩ := bind_eq_ok.1 h
  obtain ⟨⟨is, pending, r₂⟩, hi, h⟩ := bind_eq_ok.1 h
  obtain ⟨⟨signature, r₃⟩, hs, h⟩ := bind_eq_ok.1 h
  obtain ⟨⟨⟨parent, c⟩, r₄⟩, he, h⟩ := bind_eq_ok.1 h
  obtain ⟨⟨interfaces, r₅⟩, hm, h⟩ := bind_eq_ok.1 h
  obtain ⟨r₆, hb, h⟩ := bind_eq_ok.1 h
  cases h
  obtain ⟨r, hword, hs⟩ := bind_eq_ok.1 hs
  obtain ⟨⟨name, r₃'⟩, hident, hs⟩ := bind_eq_ok.1 hs
  cases hs
  have hname := (ident_eq_ok hident).1
  obtain rfl := bodyStart_eq_ok hb
  obtain ⟨ws₂, rfl, hkeys₂, hparent₂, hname₂, hkept₂⟩ := exists_implementsWords hm (List.cons_ne_nil _ _)
  obtain ⟨cs, ws₁, hwords, hkeys₁, hname₁, hparent₁, hkept₁⟩ := exists_extendsWords he (List.cons_ne_nil _ _)
  obtain ⟨w, hkey, hline, hothers, htext⟩ :=
    hwords.exists_name (p := .name) (by decide) (List.cons_ne_nil _ _) name
  refine ⟨⟨w :: (ws₁ ++ ws₂), (Scan.lineComment r₆).1⟩, ?_, ⟨r₆, ?_, rfl⟩, ?_, fun x hx => ?_⟩
  · rw [List.map_cons, List.map_append, hkey, hkeys₁, hkeys₂]
    rfl
  · refine bind_eq_ok.2 ⟨_, hn, bind_eq_ok.2 ⟨_, hi, bind_eq_ok.2 ⟨r, hword, ?_⟩⟩⟩
    exact congrArg Except.ok (hname.trans htext)
  · have hchosen : ∀ (a b : Option Text) (l : List (Option Text)),
        (a :: l ++ [b]).findSome? id = (a.or (l.findSome? id)).or b := by
      intro a b l
      cases a <;> simp [List.findSome?_append]
    rw [HeaderTail.findSome?_onLine hkey hname₁ hparent₂, hline, hname₂, hparent₁]
    exact congrArg (·.or (parent.bind Element.trailingComment)) (hchosen _ _ _)
  · have hx : x ∈ cs ++ ws₁.flatMap HeaderWord.others ∨ x ∈ ws₂.flatMap HeaderWord.others := by
      simpa [HeaderTail.others, hothers, or_assoc] using hx
    have hsignature : ∀ {o : Option Text}, o ∈ pending :: c :: interfaces.comments → Comment.KeptIn o x →
        Comment.KeptIn (joinComments? [joinComments? (pending :: c :: interfaces.comments),
          parent.bind Element.commentBefore]) x := fun ho hox =>
      Comment.keptIn_joinComments? List.mem_cons_self (Comment.keptIn_joinComments? ho hox)
    rcases hx with hx | hx
    · rcases hkept₁ x hx with hox | hox
      · exact Comment.keptIn_joinComments? (List.mem_cons_of_mem _ List.mem_cons_self) hox
      · exact hsignature (List.mem_cons_of_mem _ List.mem_cons_self) hox
    · obtain ⟨o, ho, hox⟩ := hkept₂ x hx
      exact hsignature (List.mem_cons_of_mem _ (List.mem_cons_of_mem _ ho)) hox

end Grammar

/-! ## What is written of the comments -/

/-- What is written of the comments of a header. -/
structure HeaderTail.WrittenIn (h : HeaderTail) (f : ClassFile) : Prop where
  others : ∀ c ∈ h.others, Comment.ShownIn f.generate c
  /-- Behind the header the first visible comment on the line of a word is written. -/
  chosen : f.headerTrailing = (h.onLine.filterMap visible?).head?
  onLine : ∀ c ∈ h.onLine, Comment.ShownIn f.generate c ∨
    ∃ v d, visible? c = some v ∧ f.headerTrailing = some d ∧ d ≠ v
  all : (h.onLine.filterMap visible?).length ≤ 1 → ∀ c ∈ h.onLine, Comment.ShownIn f.generate c

theorem Layout.render_isInfix {ps qs : List Piece} (h : ps <:+: qs) (l : Layout) : l.render ps <:+: l.render qs := by
  obtain ⟨a, b, rfl⟩ := h
  rw [Layout.render_append, Layout.render_append]
  exact List.infix_append _ _ _

namespace ClassFile

theorem headerPieces_isInfix (f : ClassFile) : f.headerPieces <:+: f.pieces := by
  unfold pieces
  refine List.infix_append_of_infix_left (List.infix_append_of_infix_left ?_)
  exact List.infix_append_of_infix_left List.infix_append_right

theorem before_isInfix (f : ClassFile) :
    Layout.standard.render (Comment.before 0 f.headerComment) <:+: f.generate := by
  refine Layout.render_isInfix (List.IsInfix.trans ?_ f.headerPieces_isInfix) _
  unfold headerPieces
  simp only [List.append_assoc]
  exact (List.prefix_append _ _).isInfix

theorem behind_isInfix (f : ClassFile) :
    Layout.standard.render (Comment.behind f.headerTrailing) <:+: f.generate := by
  refine Layout.render_isInfix (List.IsInfix.trans ?_ f.headerPieces_isInfix) _
  unfold headerPieces
  exact List.infix_append_of_infix_left List.infix_append_right

/-- The comment that is chosen for the line of the class is shown. -/
theorem shownIn_headerTrailing {f : ClassFile} {c : Text} (hc : Within Scan.isInLine c)
    (h : f.headerTrailing = some (trim c)) (hne : trim c ≠ []) : Comment.ShownIn f.generate c := by
  refine Comment.shownIn_of_inLine hc (List.IsInfix.trans ?_ f.behind_isInfix)
  have hshown : Comment.shown (some (trim c)) = some (trim c) :=
    Comment.shown_eq_self fun t ht => by
      cases ht
      exact Comment.isShown_trim hc hne
  rw [h, Comment.render_behind, hshown]
  exact List.infix_append_right

/-- A comment that could be chosen for the line of the class is shown, unless it is visible and another one is
chosen. -/
theorem shownIn_or_chosen {f : ClassFile} {cs : List Text} (h : f.headerTrailing = cs.findSome? visible?)
    {c : Text} (hc : c ∈ cs) (hin : Within Scan.isInLine c) : Comment.ShownIn f.generate c ∨
      ∃ v d, visible? c = some v ∧ f.headerTrailing = some d ∧ d ≠ v := by
  cases hv : visible? c with
  | none =>
    left
    refine Comment.shownIn_of_isSpace ?_ _
    unfold visible? at hv
    split at hv
    · assumption
    · cases hv
  | some v =>
    obtain ⟨rfl, hne⟩ := visible?_eq_some.1 hv
    have hsome : (cs.findSome? visible?).isSome := List.findSome?_isSome_iff.2 ⟨c, hc, by rw [hv]; rfl⟩
    obtain ⟨d, hd⟩ := Option.isSome_iff_exists.1 hsome
    rw [← h] at hd
    by_cases hdc : d = trim c
    · left
      subst hdc
      exact shownIn_headerTrailing hin hd hne
    · exact .inr ⟨trim c, d, rfl, hd, hdc⟩

/-- **Which comments of a header are written.** The header of a class that is read consists of the name of the
class, the words of its clauses and the brace, with gaps between them. The comments of the gaps are all written
if at most one of those on the line of a name, of a comma or of the brace is visible; if there are several, the
first is written. -/
theorem exists_headerTail {t : Text} {f : ClassFile} (h : ClassFile.parse t = .ok f) :
    ∃ tail : HeaderTail, tail.StandsIn t f ∧ tail.WrittenIn f := by
  obtain ⟨r, hd, rest, content, behind, hr, hh, hb, hf⟩ := Grammar.source_eq_ok.1 (mapError_eq_ok.1 h)
  obtain ⟨tail, hkeys, ⟨more, htext, hbrace⟩, htrailing, hothers⟩ := Grammar.exists_tail hh
  -- The header of the file is the one that was read.
  have hstands : tail.StandsIn t f := ⟨by rw [hf]; exact hkeys, r, more, hr, htext, hbrace⟩
  have hline : f.headerTrailing = tail.onLine.findSome? visible? := by rw [hf]; exact htrailing
  have hbefore : ∀ c ∈ tail.others, Comment.KeptIn f.headerComment c := by rw [hf]; exact hothers
  have hin : ∀ c ∈ tail.onLine, Within Scan.isInLine c :=
    HeaderTail.inLine (hbrace ▸ Scan.inLine_lineComment more)
  have hhead : f.headerTrailing = (tail.onLine.filterMap visible?).head? := by
    rw [List.head?_filterMap]
    exact hline
  refine ⟨tail, hstands, fun c hc => ?_, hhead, fun c hc => shownIn_or_chosen hline hc (hin c hc),
    fun hle c hc => ?_⟩
  · exact (Comment.shownIn_before (hbefore c hc) 0).mono f.before_isInfix
  · rcases shownIn_or_chosen hline hc (hin c hc) with hshown | ⟨v, d, hv, hd, hne⟩
    · exact hshown
    · -- The only visible one is the one that is chosen.
      have hmem : v ∈ tail.onLine.filterMap visible? := List.mem_filterMap.2 ⟨c, hc, hv⟩
      rw [hhead] at hd
      generalize tail.onLine.filterMap visible? = vs at hle hmem hd
      obtain ⟨us, rfl⟩ := List.head?_eq_some_iff.1 hd
      obtain rfl : us = [] := by simpa using hle
      exact absurd (List.mem_singleton.1 hmem).symm hne

/-- Comments at every place of a header, of which only one on the line of a name is visible. -/
theorem exists_headerTail_shown : ∃ f, ClassFile.parse (utf8
      "<?php namespace A; class C /* a */ extends // b\n B // c\n implements I /* d */, // \n J \x7b \x7d") =
        .ok f ∧
    f.headerTrailing = some (utf8 "c") ∧ ∃ tail : HeaderTail, tail.StandsIn (utf8
      "<?php namespace A; class C /* a */ extends // b\n B // c\n implements I /* d */, // \n J \x7b \x7d") f ∧
      tail.WrittenIn f := by
  have hread : (ClassFile.parse (utf8
      "<?php namespace A; class C /* a */ extends // b\n B // c\n implements I /* d */, // \n J \x7b \x7d")
        ).toOption.map headerTrailing = some (some (utf8 "c")) := by decide +kernel
  obtain ⟨f, hf, htrailing⟩ := map_toOption_eq_some.1 hread
  exact ⟨f, hf, htrailing, exists_headerTail hf⟩

/-- Of two comments on the lines of names the second is not written. -/
theorem not_shownIn_second : ∃ f, ClassFile.parse (utf8
      "<?php\nnamespace A;\nclass C // one\nextends B // two\n\x7b\n\x7d") = .ok f ∧
    ¬Comment.ShownIn f.generate (utf8 " two") := by
  have hread : (ClassFile.parse (utf8
      "<?php\nnamespace A;\nclass C // one\nextends B // two\n\x7b\n\x7d")).toOption.map
        (fun f => holds (utf8 "two") f.generate) = some false := by decide +kernel
  obtain ⟨f, hf, hholds⟩ := map_toOption_eq_some.1 hread
  refine ⟨f, hf, fun h => ?_⟩
  have hline : utf8 " two" ∈ lines (utf8 " two") := by decide +kernel
  have hin := h _ hline
  rw [show trim (utf8 " two") = utf8 "two" by decide +kernel] at hin
  rw [holds_iff.2 hin] at hholds
  cases hholds

end ClassFile

end PhpClass
