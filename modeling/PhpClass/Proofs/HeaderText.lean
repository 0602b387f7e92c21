import PhpClass.Proofs.Header

/-!
# Headers that are written

What is written of a header is read part by part: the namespace and the imports with the gaps in front of
them, the words in front of the class name, and the clauses behind it (`Grammar.clauses_append`). The
comment behind the header is read where the last name of it is, so the extended class takes it from a class
that implements nothing (`ClassFile.rereadHeader`).
-/

namespace PhpClass

open Text

/-! ## Ends of gaps -/

theorem Byte.isName_of_isIdent (b : UInt8) (h : isIdent b = true) : isName b = true := by simp [isName, h]

theorem Byte.isName_spec : ∀ b, isName b = true → isBlank b = false ∧ b ≠ ascii '/' ∧ b ≠ ascii ',' :=
  forall_of_fin (by decide +kernel)

theorem Text.IsIdent.isName {w : Text} (h : IsIdent w) : IsName w :=
  ⟨h.1, h.within.mono Byte.isName_of_isIdent⟩

namespace Scan

theorem gapEnd_name {w : Text} (h : IsName w) (rest : Text) : GapEnd (w ++ rest) := by
  obtain ⟨b, w, rfl⟩ := List.exists_cons_of_ne_nil h.1
  obtain ⟨hb, hs, -⟩ := Byte.isName_spec b (h.2 b List.mem_cons_self)
  exact gapEnd_cons hb hs

/-- In front of what no gap begins with, only blanks are read as the place of a line comment. -/
theorem trailing_of_gapEnd {sp t : Text} (hs : Within Byte.isGap sp) (h : GapEnd t) :
    trailing (sp ++ t) = (none, t) := by
  have hap : Apart Byte.isGap t := by
    cases t with
    | nil => exact apart_nil _
    | cons b t =>
      have hb := h.1
      rw [apart_cons] at hb ⊢
      cases hg : Byte.isGap b with
      | false => rfl
      | true => rw [Byte.isBlank_of_isGap b hg] at hb; cases hb
  rw [trailing_eq, lineComment_none hs hap (comment?_eq_none_iff.1 h.2).2]
  rfl

theorem trailing_lineEnd {e : UInt8} (he : Byte.isLineEnd e = true) (rest : Text) :
    trailing (e :: rest) = (none, e :: rest) := by
  obtain ⟨hgap, hslash⟩ := Byte.isLineEnd_spec e he
  have hno : startsWith (utf8 "//") (e :: rest) = false := by
    rw [lineStart]
    simp [startsWith, after?, hslash.symm]
  have hread := lineComment_none (within_nil _) (apart_cons.2 hgap) hno
  rw [List.nil_append] at hread
  rw [trailing_eq, hread]
  rfl

end Scan

namespace Grammar

theorem comment_of_gapEnd {t : Text} (h : Scan.GapEnd t) : comment t = .ok (none, t) :=
  comment_append Scan.IsGap.nil h

theorem comment_blanks {w t : Text} (hw : Within Byte.isBlank w) (h : Scan.GapEnd t) :
    comment (w ++ t) = .ok (none, t) := comment_append (Scan.isGap_blanks hw) h

/-! ## Namespace and imports -/

variable {g : Text} {cs : List Text}

theorem namespaceWord_blanks (hg : Scan.IsGap g cs) (earlier : List (Option Text)) {w : Text} (hw : IsBlanks w)
    (rest : Text) : namespaceWord earlier (g ++ (utf8 "namespace" ++ (w ++ rest))) =
      .ok (earlier ++ [Scan.kept (join newline cs)], w ++ rest) := by
  have hend : Scan.GapEnd (utf8 "namespace" ++ (w ++ rest)) := Scan.gapEnd_name (by decide) _
  exact namespaceWord_of_word earlier (comment_append hg hend) (keyword?_eq_some.2 ⟨rfl, hw.apart rest⟩)

theorem namespaceName_blanks (hg : Scan.IsGap g cs) {w p : Text} (hw : IsBlanks w) (hp : Scan.IsStatement false p)
    (rest : Text) : namespaceName (g ++ (utf8 "namespace" ++ (w ++ (p ++ ascii ';' :: rest)))) =
      .ok (⟨p, Scan.kept (join newline cs), (Scan.trailing rest).1⟩, (Scan.trailing rest).2) := by
  have hstmt := statement_append .namespaceName hw.2 hp rest
  rw [List.append_assoc] at hstmt
  refine bind_eq_ok.2 ⟨_, namespaceWord_blanks hg [] hw (p ++ ascii ';' :: rest), bind_eq_ok.2 ⟨(p, rest), hstmt, ?_⟩⟩
  rw [List.nil_append, joinComments?_singleton]
  rfl

theorem namespaceName_append (hg : Scan.IsGap g cs) {p : Text} (hp : Scan.IsStatement false p)
    (rest : Text) : namespaceName (g ++ (utf8 "namespace " ++ (p ++ ascii ';' :: rest))) =
      .ok (⟨p, Scan.kept (join newline cs), (Scan.trailing rest).1⟩, (Scan.trailing rest).2) := by
  have hword : utf8 "namespace " = utf8 "namespace" ++ [Byte.space] := by decide
  rw [hword, List.append_assoc]
  exact namespaceName_blanks hg isBlanks_space hp rest

theorem importName_blanks (c : Option Text) {w p : Text} (hw : IsBlanks w) (hp : Scan.IsStatement false p)
    (rest : Text) : importName c (w ++ (p ++ ascii ';' :: rest)) =
      .ok (⟨p, c, (Scan.trailing rest).1⟩, (Scan.trailing rest).2) := by
  have hstmt := statement_append .importName hw.2 hp rest
  rw [List.append_assoc] at hstmt
  exact bind_eq_ok.2 ⟨(p, rest), hstmt, rfl⟩

theorem imports_nil (hg : Scan.IsGap g cs) {t : Text} (ht : Scan.GapEnd t)
    (hk : keyword? (utf8 "use") t = none) :
    imports (g ++ t) = .ok ([], Scan.kept (join newline cs), t) :=
  imports_of_none (comment_append hg ht) hk

theorem imports_blanks (hg : Scan.IsGap g cs) {w p : Text} (hw : IsBlanks w) (hp : Scan.IsStatement false p)
    {rest last : Text} {is : List (Element Text)} {pending : Option Text}
    (hrest : imports (Scan.trailing rest).2 = .ok (is, pending, last)) :
    imports (g ++ (utf8 "use" ++ (w ++ (p ++ ascii ';' :: rest)))) =
      .ok (⟨p, Scan.kept (join newline cs), (Scan.trailing rest).1⟩ :: is, pending, last) := by
  have hend : Scan.GapEnd (utf8 "use" ++ (w ++ (p ++ ascii ';' :: rest))) := Scan.gapEnd_name (by decide) _
  have huse := imports_of_use (comment_append hg hend) (keyword?_eq_some.2 ⟨rfl, hw.apart _⟩)
    (importName_blanks (Scan.kept (join newline cs)) hw hp rest)
  rw [huse, hrest]
  rfl

theorem imports_cons (hg : Scan.IsGap g cs) {p : Text} (hp : Scan.IsStatement false p) {rest last : Text}
    {is : List (Element Text)} {pending : Option Text}
    (hrest : imports (Scan.trailing rest).2 = .ok (is, pending, last)) :
    imports (g ++ (utf8 "use " ++ (p ++ ascii ';' :: rest))) =
      .ok (⟨p, Scan.kept (join newline cs), (Scan.trailing rest).1⟩ :: is, pending, last) := by
  have hword : utf8 "use " = utf8 "use" ++ [Byte.space] := by decide
  rw [hword, List.append_assoc]
  exact imports_blanks hg isBlanks_space hp hrest

/-! ## The class -/

/-- The modifier of a class with blanks behind it. -/
def SpellsKind (k : ClassKind) (t : Text) : Prop :=
  match k.keyword? with
  | none => t = []
  | some keyword => ∃ w, IsBlanks w ∧ t = keyword ++ w

/-- The modifier of a class as it is written. -/
def kindText (k : ClassKind) : Text := k.keyword?.elim [] fun keyword => keyword ++ [Byte.space]

theorem spellsKind_kindText (k : ClassKind) : SpellsKind k (kindText k) := by
  cases k with
  | normal => rfl
  | final => exact ⟨_, isBlanks_space, rfl⟩
  | abstract => exact ⟨_, isBlanks_space, rfl⟩

theorem classKind_spelled {k : ClassKind} {t : Text} (ht : SpellsKind k t) {rest : Text}
    (hrest : Apart Byte.isIdent rest) : classKind (t ++ (utf8 "class" ++ rest)) = (k, utf8 "class" ++ rest) := by
  have hclass : IsIdent (utf8 "class") := by decide
  have hblank : Apart Byte.isBlank (utf8 "class" ++ rest) := hclass.apart_blank.append hclass.1
  have hother : ∀ word, Within Byte.isIdent word → word ≠ utf8 "class" →
      keyword? word (utf8 "class" ++ rest) = none := fun word hw hne =>
    keyword?_eq_none_of_ne hw hclass.within hrest hne
  unfold classKind
  cases k with
  | normal =>
    obtain rfl : t = [] := ht
    rw [List.nil_append, hother _ (by decide) (by decide), hother _ (by decide) (by decide)]
    dsimp only
    rw [skipBlanks_word hclass]
  | final =>
    obtain ⟨w, hw, rfl⟩ : ∃ w, IsBlanks w ∧ t = utf8 "final" ++ w := ht
    rw [List.append_assoc, keyword?_eq_some.2 ⟨rfl, hw.apart _⟩]
    dsimp only
    rw [skipBlanks_append hw.2 hblank]
  | abstract =>
    obtain ⟨w, hw, rfl⟩ : ∃ w, IsBlanks w ∧ t = utf8 "abstract" ++ w := ht
    have hfinal : keyword? (utf8 "final") (utf8 "abstract" ++ (w ++ (utf8 "class" ++ rest))) = none :=
      keyword?_eq_none_of_ne (by decide) (by decide) (hw.apart _) (by decide)
    rw [List.append_assoc, hfinal, keyword?_eq_some.2 ⟨rfl, hw.apart _⟩]
    dsimp only
    rw [skipBlanks_append hw.2 hblank]

theorem classSignature_spelled {k : ClassKind} {t : Text} (ht : SpellsKind k t) {w name rest : Text}
    (hw : IsBlanks w) (hname : IsIdent name) (hr : Apart Byte.isIdent rest) :
    classSignature (t ++ (utf8 "class" ++ (w ++ (name ++ rest)))) = .ok (⟨name, k⟩, rest) := by
  unfold classSignature
  rw [classKind_spelled ht (hw.apart _)]
  dsimp only
  refine bind_eq_ok.2 ⟨w ++ (name ++ rest), ?_, bind_eq_ok.2 ⟨(name, rest), ?_, rfl⟩⟩
  · unfold classWord
    rw [keyword?_eq_some.2 ⟨rfl, hw.apart _⟩]
  · rw [skipBlanks_append hw.2 (hname.apart_blank.append hname.1)]
    exact ident_of_isIdent _ hname hr

theorem classSignature_append (k : ClassKind) {name : Text} (hname : IsIdent name) {rest : Text}
    (hr : Apart Byte.isIdent rest) :
    classSignature (kindText k ++ (utf8 "class " ++ (name ++ rest))) = .ok (⟨name, k⟩, rest) := by
  have hword : utf8 "class " = utf8 "class" ++ [Byte.space] := by decide
  rw [hword, List.append_assoc]
  exact classSignature_spelled (spellsKind_kindText k) isBlanks_space hname hr

/-! ## Clauses -/

theorem name_of_isName {what : Expected} {w rest : Text} (hw : IsName w) (hr : Apart Byte.isName rest) :
    name what (w ++ rest) = .ok (w, rest) := by
  have hne : w.isEmpty = false := by simpa using hw.1
  unfold name
  rw [name_append hw.2 hr]
  simp [hne]

variable {u v r : Text} {c : Option Text}

/-- The text ends a clause: behind the line comment in it there is nothing up to the next word. -/
structure EndsClause (u : Text) (c : Option Text) (r : Text) : Prop where
  apart : Apart Byte.isName u
  trailing : (Scan.trailing u).1 = c
  comment : Grammar.comment (Scan.trailing u).2 = .ok (none, r)

theorem endsClause_space (h : Scan.GapEnd r) : EndsClause (Byte.space :: r) none r := by
  have hread := Scan.trailing_of_gapEnd isGap_space h
  rw [List.singleton_append] at hread
  exact ⟨apart_cons.2 (by decide), by rw [hread], by rw [hread]; exact comment_of_gapEnd h⟩

theorem endsClause_comma (t : Text) : EndsClause (ascii ',' :: t) none (ascii ',' :: t) := by
  have hend := Scan.gapEnd_cons (b := ascii ',') (t := t) (by decide) (by decide)
  have hread := Scan.trailing_of_gapEnd (within_nil _) hend
  rw [List.nil_append] at hread
  exact ⟨apart_cons.2 (by decide), by rw [hread], by rw [hread]; exact comment_of_gapEnd hend⟩

theorem parentName_append {p : Text} (hp : IsName p) (hu : EndsClause u c r) :
    parentName none (Byte.space :: (p ++ u)) = .ok (⟨p, none, c⟩, (Scan.trailing u).2) := by
  refine bind_eq_ok.2 ⟨(none, p ++ u), comment_blanks isBlank_space (Scan.gapEnd_name hp u), ?_⟩
  refine bind_eq_ok.2 ⟨(p, u), name_of_isName hp hu.apart, ?_⟩
  exact congrArg (fun d => Except.ok ((⟨p, none, d⟩ : Element Text), (Scan.trailing u).2)) hu.trailing

theorem extendsClause_some {t p : Text}
    (ht : comment t = .ok (none, utf8 "extends" ++ Byte.space :: (p ++ u)))
    (hp : IsName p) (hu : EndsClause u c r) : extendsClause t = .ok ((some ⟨p, none, c⟩, none), r) := by
  refine bind_eq_ok.2 ⟨_, ht, ?_⟩
  dsimp only
  rw [keyword?_space]
  exact bind_eq_ok.2 ⟨_, parentName_append hp hu, bind_eq_ok.2 ⟨_, hu.comment, rfl⟩⟩

theorem extendsClause_none {t : Text} (ht : comment t = .ok (none, r))
    (hk : keyword? (utf8 "extends") r = none) : extendsClause t = .ok ((none, none), r) := by
  refine bind_eq_ok.2 ⟨_, ht, ?_⟩
  dsimp only
  rw [hk]
  rfl

theorem interfaceName_append {w n : Text} (hw : Within Byte.isBlank w) (hn : IsName n)
    (hu : EndsClause u c r) : interfaceName (w ++ (n ++ u)) = .ok (⟨[n], [none, none], [c]⟩, r) := by
  refine bind_eq_ok.2 ⟨(none, n ++ u), comment_blanks hw (Scan.gapEnd_name hn u), ?_⟩
  refine bind_eq_ok.2 ⟨(n, u), name_of_isName hn hu.apart, bind_eq_ok.2 ⟨(none, r), hu.comment, ?_⟩⟩
  exact congrArg (fun d => Except.ok ((⟨[n], [none, none], [d]⟩ : Interfaces), r)) hu.trailing

theorem interfaces_last {t : Text} {i : Interfaces} (hi : interfaceName t = .ok (i, r))
    (hr : after? (utf8 ",") r = none) : interfaces t = .ok (i, r) := by
  rw [interfaces]
  split
  · next he => rw [hi] at he; cases he
  · next he =>
    rw [hi] at he
    cases he
    split
    · rfl
    · next ha => rw [hr] at ha; cases ha

theorem interfaces_comma {t behind : Text} {i j : Interfaces}
    (hi : interfaceName t = .ok (i, ascii ',' :: behind))
    (hj : interfaces (Scan.trailing behind).2 = .ok (j, r)) :
    interfaces t = .ok ((i.append { trailing := [(Scan.trailing behind).1] }).append j, r) := by
  have hcomma : after? (utf8 ",") (ascii ',' :: behind) = some behind := after?_append (utf8 ",") behind
  rw [interfaces]
  split
  · next he => rw [hi] at he; cases he
  · next he =>
    rw [hi] at he
    cases he
    split
    · next ha => rw [hcomma] at ha; cases ha
    · next ha =>
      rw [hcomma] at ha
      cases ha
      exact bind_eq_ok.2 ⟨(j, r), hj, rfl⟩

/-- What is read of interfaces without comments, up to the one behind the last of them. -/
structure Interfaces.Bare (i : Interfaces) (names : List Text) (c : Option Text) : Prop where
  names : i.names = names
  comments : ∀ d ∈ i.comments, d = none
  trailing : i.trailing.findSome? id = c

theorem exists_join {n : Text} (names : List Text) : ∃ x, join (utf8 ", ") (n :: names) = n ++ x := by
  cases names with
  | nil => exact ⟨[], by simp [join]⟩
  | cons m names => exact ⟨_, by rw [join_cons_cons, List.append_assoc]⟩

/-- Names of interfaces that are written with commas between them are read one after the other. -/
theorem interfaces_join {names : List Text} (hne : names ≠ []) (hall : ∀ n ∈ names, IsName n) {w : Text}
    (hw : Within Byte.isBlank w) (hu : EndsClause u c r) (hr : after? (utf8 ",") r = none) :
    ∃ i, interfaces (w ++ (join (utf8 ", ") names ++ u)) = .ok (i, r) ∧ i.Bare names c := by
  induction names generalizing w with
  | nil => exact absurd rfl hne
  | cons n names ih =>
    have hn := hall n List.mem_cons_self
    cases names with
    | nil =>
      refine ⟨⟨[n], [none, none], [c]⟩, ?_, rfl, by simp, by cases c <;> rfl⟩
      rw [show join (utf8 ", ") [n] = n from List.intercalate_singleton]
      exact interfaces_last (interfaceName_append hw hn hu) hr
    | cons m names =>
      obtain ⟨i, hi, hnames, hcomments, htrailing⟩ :=
        ih (by simp) (fun x hx => hall x (List.mem_cons_of_mem _ hx)) (w := []) (within_nil _)
      obtain ⟨x, hx⟩ := exists_join (n := m) names
      rw [List.nil_append, hx, List.append_assoc] at hi
      have ht : w ++ (join (utf8 ", ") (n :: m :: names) ++ u) =
          w ++ (n ++ ascii ',' :: ([Byte.space] ++ (m ++ (x ++ u)))) := by
        rw [join_cons_cons, hx]
        simp [show utf8 ", " = [ascii ',', Byte.space] by decide]
      have hbehind := Scan.trailing_of_gapEnd isGap_space
        (Scan.gapEnd_name (hall m (by simp)) (x ++ u))
      have hread := interfaces_comma (interfaceName_append hw hn (endsClause_comma _))
        (by rw [hbehind]; exact hi)
      rw [ht, hread, hbehind]
      refine ⟨_, rfl, ?_, ?_, ?_⟩
      · simp [Interfaces.append, hnames]
      · simpa [Interfaces.append] using hcomments
      · simpa [Interfaces.append] using htrailing

/-- The class that is extended, and the interfaces, as they are written behind the class name. -/
def clausesText (parent : Option Text) (interfaces : List Text) : Text :=
  parent.elim [] (fun p => utf8 " extends " ++ p) ++
    if interfaces.isEmpty then [] else utf8 " implements " ++ join (utf8 ", ") interfaces

/-- Whether the comment behind the header is read with the extended class. -/
def parentTakes (parent : Option Text) (interfaces : List Text) : Bool :=
  parent.isSome && interfaces.isEmpty

theorem implements_append {names : List Text} (hne : names ≠ []) (hall : ∀ n ∈ names, IsName n)
    (hu : EndsClause u c (Byte.openBrace :: r)) :
    ∃ i, implementsClause (utf8 "implements" ++ Byte.space :: (join (utf8 ", ") names ++ u)) =
      .ok (i, Byte.openBrace :: r) ∧ i.Bare names c := by
  obtain ⟨i, hi, hbare⟩ := interfaces_join hne hall (w := [Byte.space]) (by decide) hu
    (show after? (utf8 ",") (Byte.openBrace :: r) = none from rfl)
  refine ⟨i, ?_, hbare⟩
  unfold implementsClause
  rw [keyword?_space]
  exact hi

theorem implements_none : implementsClause (Byte.openBrace :: r) = .ok ({}, Byte.openBrace :: r) := by
  unfold implementsClause
  rw [keyword?_eq_none_of_apart (by decide) (by decide) (apart_cons.2 (by decide))]

/-- The clauses behind a class name are read with the comment behind them. -/
theorem clauses_append {parent : Option Text} {names : List Text} (hp : ∀ p ∈ parent, IsName p)
    (hall : ∀ n ∈ names, IsName n) (hu : EndsClause u c (Byte.openBrace :: r)) :
    ∃ c₁ t₁ t₂ i, Scan.trailing (clausesText parent names ++ u) = (c₁, t₁) ∧
      extendsClause t₁ = .ok ((parent.map fun p => ⟨p, none, if names.isEmpty then c else none⟩, none), t₂) ∧
      implementsClause t₂ = .ok (i, Byte.openBrace :: r) ∧
      i.names = names ∧ (∀ d ∈ i.comments, d = none) ∧
      (c₁ :: i.trailing).findSome? id = if parentTakes parent names then none else c := by
  have hbrace : keyword? (utf8 "extends") (Byte.openBrace :: r) = none :=
    keyword?_eq_none_of_apart (by decide) (by decide) (apart_cons.2 (by decide))
  have hextends : ∀ t, EndsClause (utf8 " extends " ++ t) none (utf8 "extends" ++ Byte.space :: t) :=
    fun t => endsClause_space (Scan.gapEnd_name (w := utf8 "extends") (by decide) (Byte.space :: t))
  have himplements : ∀ t, EndsClause (utf8 " implements " ++ t) none (utf8 "implements" ++ Byte.space :: t) :=
    fun t => endsClause_space (Scan.gapEnd_name (w := utf8 "implements") (by decide) (Byte.space :: t))
  cases parent with
  | none =>
    cases names with
    | nil =>
      have ht : clausesText none [] ++ u = u := by simp [clausesText]
      rw [ht]
      refine ⟨c, _, _, {}, Prod.ext hu.trailing rfl, extendsClause_none hu.comment hbrace, implements_none,
        rfl, by simp, ?_⟩
      cases c <;> rfl
    | cons n names =>
      obtain ⟨i, hi, hbare⟩ := implements_append (List.cons_ne_nil n names) hall hu
      have hends := himplements (join (utf8 ", ") (n :: names) ++ u)
      have ht : clausesText none (n :: names) ++ u =
          utf8 " implements " ++ (join (utf8 ", ") (n :: names) ++ u) := by
        simp [clausesText]
      have hother : keyword? (utf8 "extends")
          (utf8 "implements" ++ Byte.space :: (join (utf8 ", ") (n :: names) ++ u)) = none :=
        keyword?_eq_none_of_ne (by decide) (by decide) (apart_cons.2 (by decide)) (by decide)
      rw [ht]
      refine ⟨none, _, _, i, Prod.ext hends.trailing rfl, extendsClause_none hends.comment hother, hi,
        hbare.names, hbare.comments, ?_⟩
      simpa [parentTakes] using hbare.trailing
  | some p =>
    have hname := hp p rfl
    cases names with
    | nil =>
      have hends := hextends (p ++ u)
      have ht : clausesText (some p) [] ++ u = utf8 " extends " ++ (p ++ u) := by simp [clausesText]
      rw [ht]
      exact ⟨none, _, _, {}, Prod.ext hends.trailing rfl, extendsClause_some hends.comment hname hu,
        implements_none, rfl, by simp, rfl⟩
    | cons n names =>
      obtain ⟨i, hi, hbare⟩ := implements_append (List.cons_ne_nil n names) hall hu
      have hclause := himplements (join (utf8 ", ") (n :: names) ++ u)
      have hends := hextends (p ++ (utf8 " implements " ++ (join (utf8 ", ") (n :: names) ++ u)))
      have ht : clausesText (some p) (n :: names) ++ u =
          utf8 " extends " ++ (p ++ (utf8 " implements " ++ (join (utf8 ", ") (n :: names) ++ u))) := by
        simp [clausesText]
      rw [ht]
      refine ⟨none, _, _, i, Prod.ext hends.trailing rfl, extendsClause_some hends.comment hname hclause, hi,
        hbare.names, hbare.comments, ?_⟩
      simpa [parentTakes] using hbare.trailing

/-- A header is read from its parts. -/
theorem header_of_parts {t r₁ r₂ : Text} {space : Element Text} {is : List (Element Text)}
    {pending : Option Text} {signature : ClassSignature} (parent : Option Text) (names : List Text)
    (hn : namespaceName t = .ok (space, r₁)) (hi : imports r₁ = .ok (is, pending, r₂))
    (hs : classSignature r₂ = .ok (signature, clausesText parent names ++ u))
    (hp : ∀ p ∈ parent, IsName p) (hall : ∀ n ∈ names, IsName n)
    (hu : EndsClause u c (Byte.openBrace :: r)) :
    header t = .ok ({
      namespaceName := space
      imports := is
      signature := ⟨signature, pending, (if parentTakes parent names then none else c).or (Scan.trailing r).1⟩
      parent := parent.map fun p => ⟨p, none, if names.isEmpty then c else none⟩
      interfaces := names }, (Scan.trailing r).2) := by
  obtain ⟨c₁, t₁, t₂, i, ht, he, hm, hnames, hcomments, htrailing⟩ := clauses_append hp hall hu
  refine bind_eq_ok.2 ⟨_, hn, bind_eq_ok.2 ⟨_, hi, bind_eq_ok.2 ⟨_, hs, ?_⟩⟩⟩
  dsimp only
  rw [ht]
  refine bind_eq_ok.2 ⟨_, he, bind_eq_ok.2 ⟨_, hm, bind_eq_ok.2 ⟨r, ?_, ?_⟩⟩⟩
  · unfold bodyStart
    rw [show Byte.openBrace :: r = [Byte.openBrace] ++ r from rfl, after?_append]
  · have hbefore : joinComments? (pending :: none :: i.comments) = pending :=
      joinComments?_cons_none fun d hd => by
        rcases List.mem_cons.1 hd with rfl | hd
        · rfl
        · exact hcomments d hd
    have hbehind : (c₁ :: i.trailing ++ [(Scan.trailing r).1]).findSome? id =
        (if parentTakes parent names then none else c).or (Scan.trailing r).1 := by
      rw [List.findSome?_append, htrailing]
      cases (Scan.trailing r).1 <;> rfl
    dsimp only
    rw [hbefore, hbehind, hnames]
    rfl

/-! ## Headers in a layout -/

variable {l : Layout} {w : Text}

theorem namespaceName_render (hl : l.Blank) {f : ClassFile}
    (hf : Scan.IsStatement false f.namespaceName.payload)
    (hc : ∀ t ∈ f.namespaceName.commentBefore, Comment.Writable t) (hw : Within Byte.isBlank w)
    (rest : Text) :
    namespaceName (w ++ (l.render f.namespacePieces ++ rest)) =
      .ok (f.namespaceName.reread, l.newline ++ (l.newline ++ rest)) := by
  obtain ⟨cs, hg, hcs⟩ := Comment.isGap_before hl 0 hc
  have hgap := ((Scan.isGap_blanks hw).append hg).append (Scan.isGap_blanks hl.newline)
  have hread := namespaceName_append hgap hf
    (l.render (Comment.behind f.namespaceName.trailingComment) ++ (l.newline ++ (l.newline ++ rest)))
  rw [Comment.trailing_newline hl, List.nil_append, List.append_nil, hcs] at hread
  have ht : w ++ (l.render f.namespacePieces ++ rest) =
      w ++ l.render (Comment.before 0 f.namespaceName.commentBefore) ++ l.newline ++
        (utf8 "namespace " ++ (f.namespaceName.payload ++ ascii ';' ::
          (l.render (Comment.behind f.namespaceName.trailingComment) ++ (l.newline ++ (l.newline ++ rest))))) := by
    simp [ClassFile.namespacePieces, show utf8 ";" = [ascii ';'] by decide]
  rw [ht]
  exact hread

theorem imports_render (hl : l.Blank) {is : List (Element Text)}
    (his : ∀ i ∈ is, Scan.IsStatement false i.payload ∧ ∀ t ∈ i.commentBefore, Comment.Writable t)
    (hw : Within Byte.isBlank w) {t last : Text} {pending : Option Text}
    (ht : ∀ w, Within Byte.isBlank w → imports (w ++ t) = .ok ([], pending, last)) :
    imports (w ++ (l.render (is.flatMap ClassFile.importPieces) ++ t)) =
      .ok (is.map Element.reread, pending, last) := by
  induction is generalizing w with
  | nil => simpa using ht w hw
  | cons i is ih =>
    obtain ⟨hi, hc⟩ := his i List.mem_cons_self
    obtain ⟨cs, hg, hcs⟩ := Comment.isGap_before hl 0 hc
    have hrest := ih (fun x hx => his x (List.mem_cons_of_mem _ hx)) hl.newline
    have htrailing := Comment.trailing_newline hl i.trailingComment
      (l.render (is.flatMap ClassFile.importPieces) ++ t)
    have hread := imports_cons ((Scan.isGap_blanks hw).append hg) hi
      (by rw [htrailing]; exact hrest)
    rw [htrailing, List.nil_append, hcs] at hread
    have he : w ++ (l.render ((i :: is).flatMap ClassFile.importPieces) ++ t) =
        w ++ l.render (Comment.before 0 i.commentBefore) ++
          (utf8 "use " ++ (i.payload ++ ascii ';' :: (l.render (Comment.behind i.trailingComment) ++
            (l.newline ++ (l.render (is.flatMap ClassFile.importPieces) ++ t))))) := by
      simp [ClassFile.importPieces, show utf8 ";" = [ascii ';'] by decide]
    rw [he]
    exact hread

/-- The class from its modifier up to the brace, and what stands behind that. -/
def classText (l : Layout) (f : ClassFile) (t : Text) : Text :=
  kindText f.signature.payload.kind ++ (utf8 "class " ++ (f.className ++
    (clausesText f.parentName? f.interfaces ++
      (l.render (Comment.behind f.headerTrailing) ++ (l.newline ++ Byte.openBrace :: t)))))

theorem render_headerPieces (f : ClassFile) (t : Text) : l.render f.headerPieces ++ Byte.openBrace :: t =
    l.render (Comment.before 0 f.headerComment) ++ classText l f t := by
  unfold ClassFile.headerPieces classText kindText clausesText
  cases f.signature.payload.kind.keyword? <;> cases f.parentName? <;> cases f.interfaces <;> simp

/-- A class begins with a word that begins no import. -/
theorem exists_classWord {k : ClassKind} {t : Text} (ht : SpellsKind k t) {rest : Text}
    (hrest : Apart Byte.isIdent rest) : ∃ word last, IsIdent word ∧ word ≠ utf8 "use" ∧
      Apart Byte.isIdent last ∧ t ++ (utf8 "class" ++ rest) = word ++ last := by
  cases k with
  | normal =>
    obtain rfl : t = [] := ht
    exact ⟨utf8 "class", rest, by decide, by decide, hrest, rfl⟩
  | final =>
    obtain ⟨w, hw, rfl⟩ : ∃ w, IsBlanks w ∧ t = utf8 "final" ++ w := ht
    exact ⟨utf8 "final", _, by decide, by decide, hw.apart _, List.append_assoc _ _ _⟩
  | abstract =>
    obtain ⟨w, hw, rfl⟩ : ∃ w, IsBlanks w ∧ t = utf8 "abstract" ++ w := ht
    exact ⟨utf8 "abstract", _, by decide, by decide, hw.apart _, List.append_assoc _ _ _⟩

theorem imports_class_spelled (hg : Scan.IsGap g cs) {k : ClassKind} {t : Text} (ht : SpellsKind k t) {rest : Text}
    (hrest : Apart Byte.isIdent rest) : imports (g ++ (t ++ (utf8 "class" ++ rest))) =
      .ok ([], Scan.kept (join newline cs), t ++ (utf8 "class" ++ rest)) := by
  obtain ⟨word, last, hword, hne, hlast, he⟩ := exists_classWord ht hrest
  rw [he]
  exact imports_nil hg (Scan.gapEnd_name hword.isName _)
    (keyword?_eq_none_of_ne (by decide) hword.within hlast hne.symm)

theorem imports_class (hg : Scan.IsGap g cs) (k : ClassKind) (t : Text) :
    imports (g ++ (kindText k ++ (utf8 "class " ++ t))) =
      .ok ([], Scan.kept (join newline cs), kindText k ++ (utf8 "class " ++ t)) := by
  have hword : utf8 "class " = utf8 "class" ++ [Byte.space] := by decide
  rw [hword, List.append_assoc]
  exact imports_class_spelled hg (spellsKind_kindText k) (isBlanks_space.apart t)

theorem endsClause_behind (hl : l.Blank) (c : Option Text) (t : Text) :
    EndsClause (l.render (Comment.behind c) ++ (l.newline ++ Byte.openBrace :: t)) (Comment.shown c)
      (Byte.openBrace :: t) := by
  have hread := Comment.trailing_newline hl c (Byte.openBrace :: t)
  refine ⟨?_, by rw [hread], ?_⟩
  · obtain ⟨e, x, hnl, he⟩ := hl.breaks
    rw [Comment.render_behind, hnl]
    cases Comment.shown c with
    | none =>
      rw [Option.elim_none, List.nil_append, List.cons_append, apart_cons]
      cases hn : Byte.isName e with
      | false => rfl
      | true =>
        have hblank := (Byte.isName_spec e hn).1
        rw [Byte.isBlank_of_isLineEnd e he] at hblank
        cases hblank
    | some x => exact apart_cons.2 (by decide)
  · rw [hread]
    exact comment_blanks hl.newline (Scan.gapEnd_cons (by decide) (by decide))

theorem apart_clauses (parent : Option Text) (names : List Text) (hu : Apart Byte.isName u) :
    Apart Byte.isIdent (clausesText parent names ++ u) := by
  unfold clausesText
  cases parent with
  | some p => exact apart_cons.2 (by decide)
  | none =>
    cases names with
    | cons n names => exact apart_cons.2 (by decide)
    | nil =>
      cases u with
      | nil => exact apart_nil _
      | cons b u =>
        refine apart_cons.2 ?_
        cases hb : Byte.isIdent b with
        | false => rfl
        | true => rw [apart_cons, Byte.isName_of_isIdent b hb] at hu; cases hu

end Grammar

namespace ClassFile

/-- The comments in front of the parts of the header, as they are written. -/
def headerComments (f : ClassFile) : List (Option Text) :=
  f.namespaceName.commentBefore :: f.imports.map Element.commentBefore ++ [f.headerComment]

/-- The header as it is read back. Its comments are those in front of the class and the one behind the
header, which the extended class takes if nothing is implemented. -/
def rereadHeader (f : ClassFile) : ClassFile where
  namespaceName := f.namespaceName.reread
  imports := f.imports.map Element.reread
  signature := ⟨f.signature.payload, f.headerComment.bind Scan.kept,
    if Grammar.parentTakes f.parentName? f.interfaces then none else Comment.shown f.headerTrailing⟩
  parent := f.parentName?.map fun p =>
    ⟨p, none, if f.interfaces.isEmpty then Comment.shown f.headerTrailing else none⟩
  interfaces := f.interfaces

end ClassFile

namespace Grammar

variable {l : Layout} {w : Text}

/-- A header is read back from what is written of it, up to the line break behind its brace. -/
theorem header_render (hl : l.Blank) {f : ClassFile} (hf : f.HeaderWritable)
    (hc : ∀ c ∈ f.headerComments, ∀ t ∈ c, Comment.Writable t) (hw : Within Byte.isBlank w) (rest : Text) :
    header (w ++ (l.render f.namespacePieces ++ (l.render (f.imports.flatMap ClassFile.importPieces) ++
      (l.newline ++ (l.render f.headerPieces ++ Byte.openBrace :: (l.newline ++ rest)))))) =
      .ok (f.rereadHeader, l.newline ++ rest) := by
  have himports : ∀ i ∈ f.imports,
      Scan.IsStatement false i.payload ∧ ∀ t ∈ i.commentBefore, Comment.Writable t := fun i hi =>
    ⟨hf.imports i hi, hc _ (List.mem_append_left _ (List.mem_cons_of_mem _ (List.mem_map_of_mem hi)))⟩
  have hparent : ∀ p ∈ f.parentName?, IsName p := by
    intro p hp
    obtain ⟨e, he, rfl⟩ := Option.map_eq_some_iff.1 hp
    exact hf.parent e he
  obtain ⟨cs, hg, hcs⟩ := Comment.isGap_before hl 0 (hc f.headerComment (by simp [ClassFile.headerComments]))
  have hends := endsClause_behind hl f.headerTrailing (l.newline ++ rest)
  have hname := classSignature_append f.signature.payload.kind hf.className
    (apart_clauses f.parentName? f.interfaces hends.apart)
  -- In front of the class there are the blanks behind the last import and the comment of the class.
  have hclass : ∀ x, Within Byte.isBlank x → imports (x ++ (l.newline ++ (l.render f.headerPieces ++
      Byte.openBrace :: (l.newline ++ rest)))) =
        .ok ([], f.headerComment.bind Scan.kept, classText l f (l.newline ++ rest)) := by
    intro x hx
    have hgap := (Scan.isGap_blanks (within_append.2 ⟨hx, hl.newline⟩)).append hg
    have hread : imports (x ++ l.newline ++ l.render (Comment.before 0 f.headerComment) ++
        classText l f (l.newline ++ rest)) =
          .ok ([], Scan.kept (join newline ([] ++ cs)), classText l f (l.newline ++ rest)) :=
      imports_class hgap f.signature.payload.kind _
    rw [List.nil_append, hcs] at hread
    rw [render_headerPieces]
    simpa only [List.append_assoc] using hread
  have hspace := namespaceName_render hl hf.namespaceName (hc _ (by simp [ClassFile.headerComments])) hw
    (l.render (f.imports.flatMap ClassFile.importPieces) ++
      (l.newline ++ (l.render f.headerPieces ++ Byte.openBrace :: (l.newline ++ rest))))
  have hall := imports_render hl himports (within_append.2 ⟨hl.newline, hl.newline⟩) hclass
  rw [List.append_assoc] at hall
  have hread := header_of_parts _ _ hspace hall hname hparent hf.interfaces hends
  have hbrace := Comment.trailing_newline hl none rest
  rw [show l.render (Comment.behind none) = [] from rfl, List.nil_append] at hbrace
  rw [hbrace] at hread
  rw [hread, show (Comment.shown none, l.newline ++ rest).1 = none from rfl, Option.or_none]
  rfl

end Grammar

end PhpClass
