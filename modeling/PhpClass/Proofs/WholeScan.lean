import PhpClass.Grammar.Header
import PhpClass.Proofs.Gap
import PhpClass.Proofs.Part
import PhpClass.Proofs.Utf8

/-!
# Scanners stop between characters

Every byte at which a scanner or a reader of words stops is an ASCII byte, or the end. So what it leaves of a
UTF-8 text is UTF-8 again (`_ahead`), even though on its way it may stand inside a character, behind a
backslash for instance.
-/

namespace PhpClass

namespace Byte

theorem ascii_of_isIdent_eq_false : ∀ b, isIdent b = false → b < 0x80 := forall_of_fin (by decide +kernel)

theorem ascii_of_isName_eq_false (b : UInt8) (h : isName b = false) : b < 0x80 :=
  ascii_of_isIdent_eq_false b (by simp_all [isName])

theorem ascii_of_isType_eq_false (b : UInt8) (h : isType b = false) : b < 0x80 :=
  ascii_of_isIdent_eq_false b (isIdent_of_isType_eq_false b h)

theorem ascii_of_isBlank : ∀ b, isBlank b = true → b < 0x80 := forall_of_fin (by decide +kernel)

theorem ascii_of_isGap (b : UInt8) (h : isGap b = true) : b < 0x80 := ascii_of_isBlank b (isBlank_of_isGap b h)

theorem ascii_of_isLineEnd (b : UInt8) (h : isLineEnd b = true) : b < 0x80 :=
  ascii_of_isBlank b (isBlank_of_isLineEnd b h)

theorem ascii_of_closer? : ∀ b, ∀ c ∈ closer? b, b < 0x80 ∧ c < 0x80 := forall_of_fin (by decide +kernel)

end Byte

namespace Text

variable {p : UInt8 → Bool} {t rest : Text}

/-! ## What was read -/

theorem upTo_nil (t : Text) : upTo t [] = t := List.take_length

theorem upTo_self (t : Text) : upTo t t = [] := by simp [upTo]

theorem upTo_trans {a b c : Text} (hb : b <:+ a) (hc : c <:+ b) : upTo a c = upTo a b ++ upTo b c := by
  obtain ⟨p, rfl⟩ := hb
  obtain ⟨q, rfl⟩ := hc
  rw [upTo_append, upTo_append, ← List.append_assoc, upTo_append]

theorem upTo_dropWhile (p : UInt8 → Bool) (t : Text) : upTo t (t.dropWhile p) = t.takeWhile p := by
  conv => lhs; arg 1; rw [← List.takeWhile_append_dropWhile (p := p) (l := t)]
  exact upTo_append _ _

theorem upTo_ident (t : Text) : upTo t (ident t).2 = (ident t).1 := by
  unfold ident
  split
  · exact upTo_append [] t
  · exact upTo_dropWhile Byte.isIdent t

theorem upTo_name (t : Text) : upTo t (name t).2 = (name t).1 := upTo_dropWhile Byte.isName t

/-! ## Words -/

/-- A rest that begins with an ASCII byte, or is empty. -/
theorem ahead_of_apart (hp : ∀ b, p b = false → b < 0x80) (ht : isUtf8 t = true) (hs : rest <:+ t)
    (hr : Apart p rest) : Ahead t rest := by
  refine ⟨hs, ?_⟩
  cases rest with
  | nil => rfl
  | cons b rest =>
    have hb : b < 0x80 := hp b (hr b rfl)
    rw [isUtf8_cons_ascii hb]
    exact isUtf8_of_ascii_suffix hb ht hs

/-- On both sides of an ASCII byte. -/
theorem ahead_of_ascii {b : UInt8} (hb : b < 0x80) (ht : isUtf8 t = true) (hs : b :: rest <:+ t) :
    Ahead t (b :: rest) ∧ Ahead t rest := by
  have hrest := isUtf8_of_ascii_suffix hb ht hs
  exact ⟨⟨hs, (isUtf8_cons_ascii hb rest).trans hrest⟩, (List.suffix_cons b rest).trans hs, hrest⟩

theorem Ahead.tail {b : UInt8} (h : Ahead t (b :: rest)) (hb : b < 0x80) : Ahead t rest :=
  h.trans (ahead_of_ascii hb h.utf8 List.suffix_rfl).2

theorem dropWhile_ahead (hp : ∀ b, p b = false → b < 0x80) (ht : isUtf8 t = true) : Ahead t (t.dropWhile p) :=
  ahead_of_apart hp ht (List.dropWhile_suffix p) (apart_dropWhile p t)

theorem dropWhile_ascii_ahead (hp : ∀ b, p b = true → b < 0x80) (ht : isUtf8 t = true) :
    Ahead t (t.dropWhile p) := by
  refine ⟨List.dropWhile_suffix p, ?_⟩
  induction t with
  | nil => rfl
  | cons b t ih =>
    rw [List.dropWhile_cons]
    split
    · next hb => exact ih ((isUtf8_cons_ascii (hp b hb) t).symm.trans ht)
    · exact ht

theorem after?_ahead {front : Text} (hfront : isUtf8 front = true) (ht : isUtf8 t = true)
    (h : after? front t = some rest) : Ahead t rest := by
  obtain rfl := after?_eq_some.1 h
  exact ⟨List.suffix_append _ _, (isUtf8_append hfront rest).symm.trans ht⟩

theorem keyword?_ahead {word : Text} (hword : isUtf8 word = true) (ht : isUtf8 t = true)
    (h : keyword? word t = some rest) : Ahead t rest := by
  obtain rfl := keyword?_eq_append h
  exact ⟨List.suffix_append _ _, (isUtf8_append hword rest).symm.trans ht⟩

theorem ident_ahead (ht : isUtf8 t = true) : Ahead t (ident t).2 := by
  unfold ident
  split
  · exact .refl ht
  · exact dropWhile_ahead Byte.ascii_of_isIdent_eq_false ht

theorem name_ahead (ht : isUtf8 t = true) : Ahead t (name t).2 := dropWhile_ahead Byte.ascii_of_isName_eq_false ht

theorem afterType_ahead (ht : isUtf8 t = true) : Ahead t (afterType t) := by
  obtain ⟨-, -, -, happart⟩ := exists_type t
  exact ahead_of_apart Byte.ascii_of_isType_eq_false ht (afterType_suffix t) happart

theorem beyond?_ahead {needle : Text} (hneedle : isUtf8 needle = true) {b : UInt8} (hb : b < 0x80)
    (hlast : needle.getLast? = some b) (ht : isUtf8 t = true) (h : beyond? needle t = some rest) : Ahead t rest := by
  have hs := beyond?_suffix h
  refine ⟨(List.suffix_append needle rest).trans hs, ?_⟩
  obtain ⟨front, rfl⟩ := List.getLast?_eq_some_iff.1 hlast
  refine isUtf8_of_ascii_suffix hb ht (.trans ?_ hs)
  rw [List.append_assoc]
  exact List.suffix_append front _

end Text

namespace Scan

open Text

variable {t rest : Text}

/-! ## Gaps and comments -/

/-- The interior of a comment: from behind its opening to its end. -/
structure Interior (t v w : Text) : Prop where
  ahead : Ahead t v
  ahead_end : Ahead v w
  delimited : (utf8 "/*" ++ v <:+ t ∧ utf8 "*/" <+: w) ∨
    (utf8 "//" ++ v <:+ t ∧ Within isInLine (upTo v w) ∧ Apart isInLine w)

theorem Interior.of_suffix {s v w : Text} (h : Interior t v w) (hs : Ahead s t) : Interior s v w where
  ahead := hs.trans h.ahead
  ahead_end := h.ahead_end
  delimited := h.delimited.imp (And.imp_left (·.trans hs.suffix)) (And.imp_left (·.trans hs.suffix))

theorem ascii_of_not_isInLine (b : UInt8) (h : isInLine b = false) : b < 0x80 :=
  Byte.ascii_of_isLineEnd b (by simpa [isInLine] using h)

theorem comment?_ahead {inside : Text} (ht : isUtf8 t = true) (h : comment? t = .ok (some (inside, rest))) :
    ∃ v w, v = t.drop 2 ∧ w = v.drop inside.length ∧ Interior t v w ∧ upTo v w = inside ∧ Ahead w rest := by
  rcases comment?_eq_some h with ⟨rfl, -⟩ | ⟨rfl, hin, hout⟩
  · rw [blockEnd]
    simp only [List.append_assoc, List.cons_append, List.nil_append] at ht ⊢
    have hopen : isUtf8 (utf8 "/*") = true := by decide
    have hv : isUtf8 (inside ++ ascii '*' :: ascii '/' :: rest) = true := (isUtf8_append hopen _).symm.trans ht
    obtain ⟨hw, hslash⟩ := ahead_of_ascii (by decide) hv (List.suffix_append inside _)
    obtain ⟨-, hrest⟩ := ahead_of_ascii (by decide) hslash.utf8 List.suffix_rfl
    refine ⟨_, _, (List.drop_left' (by decide)).symm, (List.drop_left' rfl).symm,
      ⟨⟨List.suffix_append _ _, hv⟩, hw, .inl ⟨List.suffix_rfl, ?_⟩⟩, upTo_append _ _, ?_⟩
    · exact ⟨rest, by rw [blockEnd]; rfl⟩
    · exact ⟨hrest.suffix.trans (List.suffix_cons _ _), hrest.utf8⟩
  · rw [List.append_assoc] at ht ⊢
    have hopen : isUtf8 (utf8 "//") = true := by decide
    have hv : isUtf8 (inside ++ rest) = true := (isUtf8_append hopen _).symm.trans ht
    have hrest : Ahead (inside ++ rest) rest :=
      ahead_of_apart ascii_of_not_isInLine hv (List.suffix_append _ _) hout
    refine ⟨_, _, (List.drop_left' (by decide)).symm, (List.drop_left' rfl).symm,
      ⟨⟨List.suffix_append _ _, hv⟩, hrest, .inr ⟨List.suffix_rfl, ?_, hout⟩⟩, upTo_append _ _, .refl hrest.utf8⟩
    rw [upTo_append]
    exact hin

/-- What a gap collects are the interiors of its comments, one behind the other. -/
theorem gap_ahead {comments : Text} (ht : isUtf8 t = true) (h : gap t = .ok (comments, rest)) :
    Ahead t rest ∧ ∃ cs : List (Text × Text), comments = (cs.flatMap fun c => upTo c.1 c.2 ++ newline) ∧
      (∀ c ∈ cs, Interior t c.1 c.2 ∧ rest <:+ c.2) ∧ cs.Pairwise fun c d => d.1 <:+ c.2 := by
  fun_induction gap t generalizing comments rest with
  | case1 t e he => cases h
  | case2 t hn =>
    cases h
    exact ⟨dropWhile_ascii_ahead Byte.ascii_of_isBlank ht, [], rfl, by simp, .nil⟩
  | case3 t inside next hc e he ih => cases h
  | case4 t inside next hc more last hg ih =>
    cases h
    have hblank : Ahead t (t.dropWhile Byte.isBlank) := dropWhile_ascii_ahead Byte.ascii_of_isBlank ht
    obtain ⟨v, w, -, -, hin, rfl, hnext⟩ := comment?_ahead hblank.utf8 hc
    obtain ⟨hrest, cs, rfl, hcs, horder⟩ := ih hnext.utf8 hg
    have hall : Ahead t next := hblank.trans ((hin.ahead.trans hin.ahead_end).trans hnext)
    refine ⟨hall.trans hrest, (v, w) :: cs, by simp, fun c hm => ?_, .cons (fun c hm => ?_) horder⟩
    · rcases List.mem_cons.1 hm with rfl | hm
      · exact ⟨hin.of_suffix hblank, hrest.suffix.trans hnext.suffix⟩
      · exact ⟨(hcs c hm).1.of_suffix hall, (hcs c hm).2⟩
    · exact (hcs c hm).1.ahead.suffix.trans hnext.suffix

theorem lineComment_ahead (ht : isUtf8 t = true) : Ahead t (lineComment t).2 ∧
    ∀ c ∈ (lineComment t).1, ∃ v, Interior t v (lineComment t).2 ∧ upTo v (lineComment t).2 = c := by
  have hgap : Ahead t (t.dropWhile Byte.isGap) := dropWhile_ascii_ahead Byte.ascii_of_isGap ht
  unfold lineComment
  dsimp only
  split
  · next line hl =>
    have hline : Ahead (t.dropWhile Byte.isGap) line := after?_ahead (by decide) hgap.utf8 hl
    have hrest : Ahead line (line.dropWhile isInLine) := dropWhile_ahead ascii_of_not_isInLine hline.utf8
    have hread : upTo line (line.dropWhile isInLine) = line.takeWhile isInLine := upTo_dropWhile isInLine line
    have hsplit : splitWhile (fun b => !Byte.isLineEnd b) line = (line.takeWhile isInLine, line.dropWhile isInLine) :=
      rfl
    rw [hsplit]
    refine ⟨hgap.trans (hline.trans hrest), fun c hc => ⟨line, ⟨hgap.trans hline, hrest, .inr ⟨?_, ?_, ?_⟩⟩, ?_⟩⟩
    · rw [← after?_eq_some.1 hl]
      exact hgap.suffix
    · rw [hread]
      exact within_takeWhile isInLine line
    · exact apart_dropWhile isInLine line
    · cases hc
      exact hread
  · exact ⟨hgap, by simp⟩

/-! ## Terminators and brackets -/

theorem afterTerminator_ahead {strings : Bool} {terminator : UInt8} {depth : Nat} (hterminator : terminator < 0x80)
    (ht : isUtf8 t = true) (h : afterTerminator strings terminator depth t = .ok rest) :
    Ahead t (terminator :: rest) ∧ Ahead t rest :=
  ahead_of_ascii hterminator ht (afterTerminator_suffix h)

theorem bracketed_ahead {block : Text} (ht : isUtf8 t = true) (h : bracketed t = .ok (block, rest)) :
    ∃ c, t.tail = insideBrackets block ++ c :: rest ∧ Ahead t t.tail ∧ Ahead t (c :: rest) ∧ Ahead t rest := by
  obtain ⟨o, c, ks, hc, rfl, rfl, -, -⟩ := bracketed_eq_ok.1 h
  obtain ⟨ho, hcascii⟩ := Byte.ascii_of_closer? o c hc
  rw [List.cons_append, List.append_assoc, List.singleton_append] at ht ⊢
  obtain ⟨-, htail⟩ := ahead_of_ascii ho ht List.suffix_rfl
  obtain ⟨hclose, hrest⟩ := ahead_of_ascii hcascii htail.utf8 (List.suffix_append _ _)
  refine ⟨c, ?_, htail, htail.trans hclose, htail.trans hrest⟩
  rw [insideBrackets_cons_concat, List.tail_cons]

/-! ## Lists -/

theorem join_extendFirst (read : Text) {parts : List Text} (h : parts ≠ []) :
    join [ascii ','] (extendFirst read parts) = read ++ join [ascii ','] parts := by
  cases parts with
  | nil => exact absurd rfl h
  | cons part parts =>
    cases parts with
    | nil => simp [extendFirst, join]
    | cons next parts => simp only [extendFirst, join_cons_cons, List.append_assoc]

theorem extendFirst_ne_nil (read : Text) (parts : List Text) : extendFirst read parts ≠ [] := by
  cases parts <;> exact List.cons_ne_nil _ _

/-- The parts with the commas between them are what was split. -/
theorem splitFirst_join {limit depth : Nat} {parts : List Text} (h : splitFirst limit depth t = .ok parts) :
    parts ≠ [] ∧ join [ascii ','] parts = t.take limit := by
  fun_induction splitFirst limit depth t generalizing parts with
  | case1 t =>
    cases h
    simp [join]
  | case2 =>
    cases h
    simp [join]
  | case3 => cases h
  | case4 depth limit b t rest hl hcomma ih =>
    obtain ⟨more, hmore, he⟩ := bind_eq_ok.1 h
    cases he
    obtain ⟨hne, hjoin⟩ := ih hmore
    obtain ⟨rfl, -⟩ := lexeme_byte hl
    obtain ⟨-, rfl⟩ : depth = 0 ∧ b = ascii ',' := by simpa using hcomma
    obtain ⟨part, parts, rfl⟩ := List.exists_cons_of_ne_nil hne
    rw [join_cons_cons, hjoin]
    exact ⟨List.cons_ne_nil _ _, rfl⟩
  | case5 depth limit b t rest hl hcomma ih =>
    obtain ⟨more, hmore, he⟩ := bind_eq_ok.1 h
    cases he
    obtain ⟨hne, hjoin⟩ := ih hmore
    obtain ⟨rfl, -⟩ := lexeme_byte hl
    rw [join_extendFirst _ hne, hjoin]
    exact ⟨extendFirst_ne_nil _ _, rfl⟩
  | case6 depth limit b t kind rest hkind hl read =>
    rename_i ih
    obtain ⟨more, hmore, he⟩ := bind_eq_ok.1 h
    cases he
    obtain ⟨hne, hjoin⟩ := ih hmore
    have hread : upTo (b :: t) rest ++ rest = b :: t :=
      upTo_append_rest ((lexeme_suffix hl).trans (List.suffix_cons b t))
    refine ⟨extendFirst_ne_nil _ _, ?_⟩
    rw [join_extendFirst _ hne, hjoin, ← List.take_append, hread]

/-- Parts of a text with a comma between each two, and `w` behind the last. All of them are whole characters. -/
inductive Parted (w : Text) : Text → List Text → Prop where
  | last {part : Text} (hw : Ahead (part ++ w) w) : Parted w (part ++ w) [part]
  | cons {part rest : Text} {parts : List Text} (hcomma : Ahead (part ++ ascii ',' :: rest) (ascii ',' :: rest))
      (hrest : Ahead (part ++ ascii ',' :: rest) rest) (more : Parted w rest parts) :
      Parted w (part ++ ascii ',' :: rest) (part :: parts)

theorem parted_join {w : Text} {parts : List Text} (hparts : parts ≠ []) (hw : isUtf8 w = true)
    (h : isUtf8 (join [ascii ','] parts ++ w) = true) : Parted w (join [ascii ','] parts ++ w) parts := by
  induction parts with
  | nil => exact absurd rfl hparts
  | cons part parts ih =>
    cases parts with
    | nil =>
      rw [show join [ascii ','] [part] = part by simp [join]]
      exact .last ⟨List.suffix_append part w, hw⟩
    | cons next parts =>
      rw [join_cons_cons, List.append_assoc, List.append_assoc, List.singleton_append] at h ⊢
      obtain ⟨hcomma, hrest⟩ := ahead_of_ascii (b := ascii ',') (by decide) h (List.suffix_append part _)
      exact .cons hcomma hrest (ih (List.cons_ne_nil _ _) hrest.utf8)

/-! ## Places in a source -/

/-- A stretch of a source with a place between characters at each end, and its bytes. -/
structure Stretch (source : Text) (start stop : Nat) (bytes : Text) : Prop where
  le : start ≤ stop
  stop_le : stop ≤ source.length
  boundary_start : isBoundary source start = true
  boundary_stop : isBoundary source stop = true
  bytes_eq : bytes = (source.take stop).drop start

variable {source v w : Text} {offset start stop : Nat}

theorem offsetOf_append (p v : Text) : offsetOf (p ++ v) v = p.length := by simp [offsetOf]

theorem offsetOf_drop (hle : offset ≤ source.length) : offsetOf source (source.drop offset) = offset := by
  rw [offsetOf, List.length_drop]
  omega

theorem offsetOf_of_append (h : v ++ w <:+ source) : offsetOf source w = offsetOf source (v ++ w) + v.length := by
  have hlength := h.length_le
  simp only [offsetOf, List.length_append] at hlength ⊢
  omega

theorem drop_offsetOf (hv : v <:+ source) : source.drop (offsetOf source v) = v := by
  obtain ⟨p, rfl⟩ := hv
  rw [offsetOf_append, List.drop_left]

theorem stretch_upTo (hv : Ahead source v) (hw : Ahead v w) :
    Stretch source (offsetOf source v) (offsetOf source w) (upTo v w) where
  le := Ahead.offsetOf_mono hv.suffix hw.suffix
  stop_le := Ahead.offsetOf_le source w
  boundary_start := hv.isBoundary
  boundary_stop := (hv.trans hw).isBoundary
  bytes_eq := by
    obtain ⟨p, rfl⟩ := hv.suffix
    obtain ⟨q, rfl⟩ := hw.suffix
    rw [offsetOf_append, ← List.append_assoc, offsetOf_append, List.take_left, List.drop_left, upTo_append]

/-- A stretch between the marks of a comment: of a block comment, or of a line comment to the end of its line. -/
structure CommentStretch (source : Text) (start stop : Nat) (bytes : Text) : Prop extends
    Stretch source start stop bytes where
  delimited : (utf8 "/*" <:+ source.take start ∧ utf8 "*/" <+: source.drop stop) ∨
    (utf8 "//" <:+ source.take start ∧ Within isInLine bytes ∧ Apart isInLine (source.drop stop))

theorem Interior.stretch (h : Interior source v w) :
    CommentStretch source (offsetOf source v) (offsetOf source w) (upTo v w) where
  toStretch := stretch_upTo h.ahead h.ahead_end
  delimited := by
    have hopen : ∀ mark : Text, mark ++ v <:+ source → mark <:+ source.take (offsetOf source v) := by
      rintro mark ⟨p, rfl⟩
      rw [← List.append_assoc, offsetOf_append, List.take_left]
      exact List.suffix_append p mark
    rw [drop_offsetOf (h.ahead_end.suffix.trans h.ahead.suffix)]
    exact h.delimited.imp (And.imp_left (hopen _)) (And.imp_left (hopen _))

/-- A place between characters, no earlier than an offset. -/
structure Place (source : Text) (offset stop : Nat) : Prop where
  le : offset ≤ stop
  stop_le : stop ≤ source.length
  boundary : isBoundary source stop = true

/-- Where parts lie that follow one another from an offset on, with a comma between each two. -/
def partCuts (start : Nat) : List Text → List (Nat × Nat)
  | [] => []
  | part :: parts => (start, start + part.length) :: partCuts (start + part.length + 1) parts

theorem parts_stretch {parts : List Text} (h : Parted w v parts) (hv : Ahead source v) :
    ∀ c ∈ parts.zip (partCuts (offsetOf source v) parts), Stretch source c.2.1 c.2.2 c.1 := by
  induction h with
  | @last part hw =>
    intro c hc
    obtain rfl : c = (part, offsetOf source (part ++ w), offsetOf source (part ++ w) + part.length) := by
      simpa [partCuts] using hc
    rw [← offsetOf_of_append hv.suffix]
    simpa only [upTo_append] using stretch_upTo hv hw
  | @cons part rest parts hcomma hrest _ ih =>
    have hstop := offsetOf_of_append hv.suffix
    intro c hc
    rw [partCuts, List.zip_cons_cons, List.mem_cons] at hc
    rcases hc with rfl | hc
    · rw [← hstop]
      simpa only [upTo_append] using stretch_upTo hv hcomma
    · have hbehind : offsetOf source rest = offsetOf source (ascii ',' :: rest) + 1 :=
        offsetOf_of_append (v := [ascii ',']) (hcomma.suffix.trans hv.suffix)
      rw [← hstop, ← hbehind] at hc
      exact ih (hv.trans hrest) c hc

/-! ## Scanners at an offset -/

/-- What the scanners say about a place in a source lies between characters too, and the comments that
they hand out are stretches of the source. -/
structure WholeAt (source : Text) (offset : Nat) : Prop where
  gap : ∀ {stop comments}, gapAt source offset = .ok (stop, comments) → Place source offset stop ∧
    ∃ cuts : List (Text × Nat × Nat), comments = (cuts.flatMap fun c => c.1 ++ newline) ∧
      (∀ c ∈ cuts, CommentStretch source c.2.1 c.2.2 c.1 ∧ offset ≤ c.2.1 ∧ c.2.2 ≤ stop) ∧
      cuts.Pairwise fun c d => c.2.2 ≤ d.2.1
  lineComment : Place source offset (lineCommentAt source offset).1 ∧
    ∀ c ∈ (lineCommentAt source offset).2, ∃ start, offset ≤ start ∧
      CommentStretch source start (lineCommentAt source offset).1 c
  terminator : ∀ {strings terminator stop}, terminator < 0x80 →
    terminatorAt strings terminator source offset = .ok stop → Place source offset stop
  partner : ∀ {stop}, partnerAt source offset = .ok stop → Place source offset stop
  split : ∀ {stop parts}, isBoundary source (min stop source.length) = true →
    splitAt source offset stop = .ok parts →
    parts ≠ [] ∧ join [ascii ','] parts = (source.take stop).drop offset ∧
      ∀ c ∈ parts.zip (partCuts offset parts), Stretch source c.2.1 c.2.2 c.1

theorem fromOffset_eq_ok {α : Type} {scan : Text → Scan α} {a : α} (h : fromOffset source offset scan = .ok a) :
    scan (source.drop offset) = .ok a := mapError_eq_ok.1 h

/-- A bracket with its partner is the front of a bracketed text. -/
theorem bracketed_of_partnerAt {stop : Nat} (h : partnerAt source offset = .ok stop) : offset ≤ source.length ∧
    ∃ rest, bracketed (source.drop offset) = .ok (upTo (source.drop offset) rest, rest) ∧
      stop = offsetOf source rest - 1 := by
  unfold partnerAt at h
  split at h
  · next hle =>
    obtain ⟨rest, hr, he⟩ := bind_eq_ok.1 h
    cases he
    refine ⟨hle, rest, ?_, rfl⟩
    rw [bracketed, fromOffset_eq_ok hr]
    rfl
  · cases h

/-- Between two places between characters the parts are kept as they are found. -/
theorem splitAt_eq_ok {parts : List Text} (hle : offset ≤ source.length) (hstart : isBoundary source offset = true)
    (hstop : isBoundary source (min stop source.length) = true) : splitAt source offset stop = .ok parts ↔
      splitFirst (min stop source.length - offset) 0 (source.drop offset) = .ok parts := by
  simp only [splitAt, Nat.min_eq_left hle, if_pos hstart, if_pos hstop, fromOffset]
  cases splitFirst (min stop source.length - offset) 0 (source.drop offset) with
  | error e => exact iff_of_false nofun nofun
  | ok found =>
    constructor
    · intro h
      cases h
      rfl
    · intro h
      cases h
      rfl

theorem splitAt_join {parts : List Text} (hle : offset ≤ source.length) (hstart : isBoundary source offset = true)
    (hstop : isBoundary source (min stop source.length) = true) (h : splitAt source offset stop = .ok parts) :
    parts ≠ [] ∧ join [ascii ','] parts = (source.take stop).drop offset := by
  obtain ⟨hne, hjoin⟩ := splitFirst_join ((splitAt_eq_ok hle hstart hstop).1 h)
  refine ⟨hne, ?_⟩
  rw [hjoin, List.drop_take, List.take_eq_take_iff, List.length_drop]
  omega

section

variable {stop : Nat} (hle : offset ≤ source.length) (hstart : Ahead source (source.drop offset))
include hle hstart

theorem place_of_ahead (hv : Ahead (source.drop offset) v) : Place source offset (offsetOf source v) where
  le := by
    have := Ahead.offsetOf_mono hstart.suffix hv.suffix
    rwa [offsetOf_drop hle] at this
  stop_le := Ahead.offsetOf_le source v
  boundary := (hstart.trans hv).isBoundary

theorem commentStretch_of_interior (h : Interior (source.drop offset) v w) : offset ≤ offsetOf source v ∧
    CommentStretch source (offsetOf source v) (offsetOf source w) (upTo v w) :=
  ⟨(place_of_ahead hle hstart h.ahead).le, (h.of_suffix hstart).stretch⟩

theorem gapAt_whole {comments : Text} (h : gapAt source offset = .ok (stop, comments)) : Place source offset stop ∧
    ∃ cuts : List (Text × Nat × Nat), comments = (cuts.flatMap fun c => c.1 ++ newline) ∧
      (∀ c ∈ cuts, CommentStretch source c.2.1 c.2.2 c.1 ∧ offset ≤ c.2.1 ∧ c.2.2 ≤ stop) ∧
      cuts.Pairwise fun c d => c.2.2 ≤ d.2.1 := by
  obtain ⟨⟨_, rest⟩, hg, he⟩ := bind_eq_ok.1 h
  cases he
  obtain ⟨hrest, cs, rfl, hcs, horder⟩ := gap_ahead hstart.utf8 (fromOffset_eq_ok hg)
  have hend : ∀ c ∈ cs, c.2 <:+ source := fun c hc =>
    ((hcs c hc).1.ahead.trans (hcs c hc).1.ahead_end).suffix.trans hstart.suffix
  refine ⟨place_of_ahead hle hstart hrest, cs.map fun c => (upTo c.1 c.2, offsetOf source c.1, offsetOf source c.2),
    ?_, ?_, ?_⟩
  · rw [List.flatMap_map]
  · intro c hc
    obtain ⟨⟨v, w⟩, hm, rfl⟩ := List.mem_map.1 hc
    obtain ⟨hfirst, hstretch⟩ := commentStretch_of_interior hle hstart (hcs _ hm).1
    exact ⟨hstretch, hfirst, Ahead.offsetOf_mono (hend _ hm) (hcs _ hm).2⟩
  · rw [List.pairwise_map]
    exact horder.imp_of_mem fun hc _ hcd => Ahead.offsetOf_mono (hend _ hc) hcd

theorem lineCommentAt_whole : Place source offset (lineCommentAt source offset).1 ∧
    ∀ c ∈ (lineCommentAt source offset).2, ∃ start, offset ≤ start ∧
      CommentStretch source start (lineCommentAt source offset).1 c := by
  obtain ⟨hrest, hcomment⟩ := lineComment_ahead hstart.utf8
  refine ⟨place_of_ahead hle hstart hrest, fun c hc => ?_⟩
  obtain ⟨v, hin, rfl⟩ := hcomment c hc
  exact ⟨offsetOf source v, commentStretch_of_interior hle hstart hin⟩

theorem terminatorAt_whole {strings : Bool} {terminator : UInt8} (hterminator : terminator < 0x80)
    (h : terminatorAt strings terminator source offset = .ok stop) : Place source offset stop := by
  obtain ⟨rest, hr, he⟩ := bind_eq_ok.1 h
  cases he
  exact place_of_ahead hle hstart (afterTerminator_ahead hterminator hstart.utf8 (fromOffset_eq_ok hr)).1

theorem partnerAt_whole (h : partnerAt source offset = .ok stop) : Place source offset stop := by
  obtain ⟨-, rest, hblock, rfl⟩ := bracketed_of_partnerAt h
  obtain ⟨c, -, -, hclose, -⟩ := bracketed_ahead hstart.utf8 hblock
  have hplace := place_of_ahead hle hstart hclose
  rwa [show offsetOf source (c :: rest) = offsetOf source rest - 1 by
    simp only [offsetOf, List.length_cons]; omega] at hplace

theorem splitAt_whole {parts : List Text} (hs : isUtf8 source = true)
    (hstop : isBoundary source (min stop source.length) = true) (h : splitAt source offset stop = .ok parts) :
    parts ≠ [] ∧ join [ascii ','] parts = (source.take stop).drop offset ∧
      ∀ c ∈ parts.zip (partCuts offset parts), Stretch source c.2.1 c.2.2 c.1 := by
  have hb := hstart.isBoundary
  rw [offsetOf_drop hle] at hb
  obtain ⟨hne, hjoin⟩ := splitFirst_join ((splitAt_eq_ok hle hb hstop).1 h)
  refine ⟨hne, (splitAt_join hle hb hstop h).2, ?_⟩
  · -- behind the last part the range ends, or the source does not come to it
    have hafter : isUtf8 ((source.drop offset).drop (min stop source.length - offset)) = true := by
      rw [List.drop_drop]
      by_cases h : offset ≤ min stop source.length
      · rw [Nat.add_sub_cancel' h]
        exact (isUtf8_of_boundary hs (Nat.min_le_right _ _) hstop).2
      · rw [Nat.sub_eq_zero_of_le (by omega), Nat.add_zero]
        exact hstart.utf8
    have hparted := parted_join hne hafter (by rw [hjoin, List.take_append_drop]; exact hstart.utf8)
    rw [hjoin, List.take_append_drop] at hparted
    have hparts := parts_stretch hparted hstart
    rwa [offsetOf_drop hle] at hparts

end

theorem wholeAt_of_boundary (hs : isUtf8 source = true) (hle : offset ≤ source.length)
    (hb : isBoundary source offset = true) : WholeAt source offset := by
  have hstart : Ahead source (source.drop offset) := .of_boundary hs hle hb
  exact {
    gap := gapAt_whole hle hstart
    lineComment := lineCommentAt_whole hle hstart
    terminator := terminatorAt_whole hle hstart
    partner := partnerAt_whole hle hstart
    split := splitAt_whole hle hstart hs
  }

end Scan

end PhpClass
