import PhpClass.Proofs.Item
import PhpClass.Proofs.LongestGap

/-!
# Taking out comments

A text is read as code and comments in turn (`Alternates`), and there is one way to read it only. Taking out the
comments puts a space in the place of each. No bytes on the two sides of that space come together, so what is left
holds no comment, and taking out comments once more changes nothing (`strip_exact`).

A text without a slash is not read at all. It is handed out as it stands even where a string in it has no end, which is
the only thing that reading it would have found (`strip_eq_stripLexemes_iff`).
-/

namespace PhpClass

open Text

namespace Scan

/-- Code, and then comments, each with the code behind it. -/
@[ext] structure Alternation where
  first : Text
  more : List (Text × Text)

namespace Alternation

/-- The text that is read in this way. -/
def text (d : Alternation) : Text := d.first ++ d.more.flatMap fun p => p.1 ++ p.2

/-- The text with a space in the place of each comment. -/
def bare (d : Alternation) : Text := d.first ++ d.more.flatMap fun p => Byte.space :: p.2

/-- The stretches of code. -/
def codes (d : Alternation) : List Text := d.first :: d.more.map Prod.snd

/-- More code in front. -/
def behindCode (c : Text) (d : Alternation) : Alternation := { d with first := c ++ d.first }

/-- A comment in front. -/
def behindComment (k : Text) (d : Alternation) : Alternation := ⟨[], (k, d.first) :: d.more⟩

variable (c k : Text) (d : Alternation)

@[simp] theorem more_behindCode : (d.behindCode c).more = d.more := rfl

@[simp] theorem length_more_behindComment : (d.behindComment k).more.length = d.more.length + 1 := rfl

@[simp] theorem text_behindCode : (d.behindCode c).text = c ++ d.text := List.append_assoc ..

@[simp] theorem text_behindComment : (d.behindComment k).text = k ++ d.text := by
  simp [text, behindComment]

@[simp] theorem bare_behindCode : (d.behindCode c).bare = c ++ d.bare := List.append_assoc ..

@[simp] theorem bare_behindComment : (d.behindComment k).bare = Byte.space :: d.bare := by
  simp [bare, behindComment]

end Alternation

/-- The text is read as code and comments in turn: strings and comments are taken as a whole, and a single byte of
code neither opens a string nor a comment. -/
inductive Alternates : Text → Alternation → Prop
  | nil : Alternates [] ⟨[], []⟩
  | quoted {quote : UInt8} {s t : Text} {d : Alternation} (hq : Byte.isQuote quote = true) (hs : StringRest quote s)
      (h : Alternates t d) : Alternates (quote :: s ++ t) (d.behindCode (quote :: s))
  | byte {b : UInt8} {t : Text} {d : Alternation} (hq : Byte.isQuote b = false) (hb : ¬BeginsComment (b :: t))
      (h : Alternates t d) : Alternates (b :: t) (d.behindCode [b])
  | comment {k inside t : Text} {d : Alternation} (hk : IsComment k inside t) (h : Alternates t d) :
      Alternates (k ++ t) (d.behindComment k)

/-- Code without comments. -/
def IsBare (c : Text) : Prop := Alternates c ⟨c, []⟩

/-- Outside strings and comments a string begins that has no end. -/
def HoldsUnclosedString (t : Text) : Prop := ∃ place ks, CodeBetween t 0 place ks ∧ UnclosedString (t.drop place)

/-- Whether the text is handed out as it stands, because no comment was taken out of it. -/
def Stripped.isBorrowed (s : Stripped) : Bool := s.comments == 0

variable {t : Text} {d : Alternation} {ks : List Token}

/-! ## Alternations as tokens -/

/-- Tokens as code and comments in turn. -/
def alternation : List Token → Alternation
  | [] => ⟨[], []⟩
  | k :: ks => if k.kind = .comment then (alternation ks).behindComment k.text else (alternation ks).behindCode k.text

theorem alternation_comment {k : Token} (hk : k.kind = .comment) (ks : List Token) :
    alternation (k :: ks) = (alternation ks).behindComment k.text := if_pos hk

theorem alternation_code {k : Token} (hk : k.kind ≠ .comment) (ks : List Token) :
    alternation (k :: ks) = (alternation ks).behindCode k.text := if_neg hk

theorem stands_quoted {x rest : Text} : Stands ⟨.quoted, x⟩ rest ↔
    ∃ quote s, x = quote :: s ∧ Byte.isQuote quote = true ∧ StringRest quote s := by
  constructor
  · rintro (⟨hq, hs⟩)
    obtain ⟨u, hu, he⟩ := (afterQuote_eq_some_iff hq).1 hs
    rw [List.append_nil] at he
    exact ⟨_, _, rfl, hq, he ▸ hu⟩
  · rintro ⟨quote, s, rfl, hq, hs⟩
    have hend := hs.afterQuote_append hq []
    rw [List.append_nil] at hend
    exact .quoted hq hend

theorem stands_comment {k rest : Text} : Stands ⟨.comment, k⟩ rest ↔ ∃ inside, IsComment k inside rest := by
  constructor
  · rintro (_ | hi | ⟨hi, hr⟩)
    · exact ⟨_, .block (by rw [← holds_iff, hi]; decide)⟩
    · exact ⟨_, .line hi hr⟩
  · rintro ⟨inside, hi | ⟨hi, hr⟩⟩
    · exact .block (by rwa [← holds_iff, Bool.not_eq_true] at hi)
    · exact .line hi hr

theorem stands_byte {b : UInt8} {rest : Text} :
    Stands ⟨.byte, [b]⟩ rest ↔ Byte.isQuote b = false ∧ ¬BeginsComment (b :: rest) := by
  rw [← comment?_eq_none]
  constructor
  · rintro (_ | _ | _ | ⟨hq, hc⟩)
    exact ⟨hq, hc⟩
  · rintro ⟨hq, hc⟩
    exact .byte hq hc

theorem alternates_code (h : Lexes ks []) : Alternates (code ks) (alternation ks) := by
  induction ks with
  | nil => exact .nil
  | cons k ks ih =>
    obtain ⟨hk, hks⟩ := h
    rw [List.append_nil] at hk
    rw [code_cons]
    obtain ⟨kind, text⟩ := k
    cases kind with
    | comment =>
      obtain ⟨inside, hinside⟩ := stands_comment.1 hk
      exact .comment hinside (ih hks)
    | quoted =>
      obtain ⟨quote, s, rfl, hq, hs⟩ := stands_quoted.1 hk
      exact .quoted hq hs (ih hks)
    | byte =>
      obtain ⟨b, he⟩ := hk.eq_byte rfl
      cases he
      obtain ⟨hq, hb⟩ := stands_byte.1 hk
      exact .byte hq hb (ih hks)

theorem Alternates.exists_code (h : Alternates t d) : ∃ ks, t = code ks ∧ Lexes ks [] ∧ d = alternation ks := by
  -- One more token in front of those that the rest of the text consists of.
  have cons : ∀ {k : Token} {t : Text} {d : Alternation}, Stands k t →
      (∃ ks, t = code ks ∧ Lexes ks [] ∧ d = alternation ks) →
      ∃ ks, k.text ++ t = code ks ∧ Lexes ks [] ∧
        (if k.kind = .comment then d.behindComment k.text else d.behindCode k.text) = alternation ks := by
    rintro k t d hk ⟨ks, rfl, hks, rfl⟩
    exact ⟨k :: ks, rfl, ⟨by rwa [List.append_nil], hks⟩, rfl⟩
  induction h with
  | nil => exact ⟨[], rfl, trivial, rfl⟩
  | quoted hq hs _ ih => exact cons (stands_quoted.2 ⟨_, _, rfl, hq, hs⟩) ih
  | byte hq hb _ ih => exact cons (stands_byte.2 ⟨hq, hb⟩) ih
  | comment hk _ ih => exact cons (stands_comment.2 ⟨_, hk⟩) ih

/-- There is one way to read code as tokens. -/
theorem Lexes.unique {js : List Token} (hjs : Lexes js []) (hks : Lexes ks []) (h : code js = code ks) : js = ks := by
  have hjs' := hjs.isPrefix hks (by rw [h]) (Nat.le_refl _)
  have hks' := hks.isPrefix hjs (by rw [h]) (Nat.le_refl _)
  exact hjs'.eq_of_length (Nat.le_antisymm hjs'.length_le hks'.length_le)

theorem alternates_code_iff (h : Lexes ks []) : Alternates (code ks) d ↔ d = alternation ks := by
  constructor
  · intro hd
    obtain ⟨js, hcode, hjs, rfl⟩ := hd.exists_code
    rw [Lexes.unique hjs h hcode.symm]
  · rintro rfl
    exact alternates_code h

theorem bare_alternation (ks : List Token) : (alternation ks).bare = code (ks.map Token.bare) := by
  induction ks with
  | nil => rfl
  | cons k ks ih =>
    rw [List.map_cons, code_cons]
    by_cases hk : k.kind = .comment
    · rw [alternation_comment hk, bare_of_comment hk, Alternation.bare_behindComment, ih]
      rfl
    · rw [alternation_code hk, bare_of_ne hk, Alternation.bare_behindCode, ih]

theorem length_alternation (ks : List Token) : (alternation ks).more.length = comments ks := by
  induction ks with
  | nil => rfl
  | cons k ks ih =>
    by_cases hk : k.kind = .comment
    · rw [alternation_comment hk, comments, List.countP_cons_of_pos (by simpa using hk)]
      exact congrArg Nat.succ ih
    · rw [alternation_code hk, comments, List.countP_cons_of_neg (by simpa using hk)]
      exact ih

/-! ## What is read -/

theorem Alternates.text_eq (h : Alternates t d) : d.text = t := by
  induction h with
  | nil => rfl
  | quoted _ _ _ ih => rw [Alternation.text_behindCode, ih]
  | byte _ _ _ ih => rw [Alternation.text_behindCode, ih, List.singleton_append]
  | comment _ _ ih => rw [Alternation.text_behindComment, ih]

theorem BeginsComment.mono {s : Text} (hs : BeginsComment s) (h : s <+: t) : BeginsComment t :=
  hs.imp (·.trans h) (·.trans h)

/-- Each stretch of code is free of comments. -/
theorem Alternates.isBare_of_mem_codes (h : Alternates t d) : ∀ c ∈ d.codes, IsBare c := by
  -- Only the first stretch changes if a string or a byte is put in front.
  have extend : ∀ {d : Alternation} {c : Text}, IsBare (c ++ d.first) → (∀ c ∈ d.codes, IsBare c) →
      ∀ c' ∈ (d.behindCode c).codes, IsBare c' := by
    intro d c hc hd c' hmem
    rcases List.mem_cons.1 hmem with rfl | hmem
    · exact hc
    · exact hd c' (List.mem_cons_of_mem _ hmem)
  induction h with
  | nil =>
    intro c hc
    rw [List.mem_singleton.1 hc]
    exact .nil
  | quoted hq hs _ ih => exact extend (.quoted hq hs (ih _ List.mem_cons_self)) ih
  | @byte b t d hq hb h ih =>
    have hfirst : b :: d.first <+: b :: t := by
      rw [List.prefix_cons_inj, ← h.text_eq]
      exact List.prefix_append _ _
    exact extend (.byte hq (fun hs => hb (hs.mono hfirst)) (ih _ List.mem_cons_self)) ih
  | comment _ _ ih =>
    intro c hc
    rcases List.mem_cons.1 hc with rfl | hc
    · exact .nil
    · exact ih c hc

theorem IsComment.two_le_length {k inside rest : Text} (h : IsComment k inside rest) : 2 ≤ k.length := by
  cases h with
  | block | line => simp [blockStart, blockEnd, lineStart]

/-- Every comment makes the text shorter. -/
theorem Alternates.length_bare_add (h : Alternates t d) : d.bare.length + d.more.length ≤ t.length := by
  induction h with
  | nil => exact Nat.le_refl 0
  | quoted _ _ _ ih | byte _ _ _ ih =>
    simp only [Alternation.bare_behindCode, Alternation.more_behindCode, List.length_append, List.length_cons,
      List.length_nil]
    omega
  | comment hk _ ih =>
    have hlength := hk.two_le_length
    simp only [Alternation.bare_behindComment, Alternation.length_more_behindComment, List.length_append,
      List.length_cons]
    omega

/-- What is left of a text is the text if it holds no comment. -/
theorem Alternates.bare_eq_iff (h : Alternates t d) : d.bare = t ↔ d.more = [] := by
  constructor
  · intro hbare
    have hlength := h.length_bare_add
    rw [hbare] at hlength
    exact List.length_eq_zero_iff.1 (by omega)
  · intro hmore
    rw [← h.text_eq, Alternation.bare, Alternation.text, hmore]
    rfl

theorem Alternates.isBare (h : Alternates t d) (hd : d.more = []) : IsBare t := by
  have hfirst : d.first = t := by
    rw [← h.text_eq, Alternation.text, hd]
    exact (List.append_nil _).symm
  have hwhole : d = ⟨t, []⟩ := Alternation.ext hfirst hd
  rwa [hwhole] at h

/-! ## Taking out comments -/

/-- Every text is code up to its end, or up to a string or a comment without its end. -/
theorem exists_code (t : Text) : ∃ ks rest, t = code ks ++ rest ∧ Lexes ks rest ∧
    (rest = [] ∨ UnclosedString rest ∨ UnclosedComment rest) := by
  induction hn : t.length using Nat.strongRecOn generalizing t with
  | ind n ih =>
    subst hn
    cases t with
    | nil => exact ⟨[], [], rfl, trivial, .inl rfl⟩
    | cons b t =>
      cases hl : lexeme b t with
      | error e =>
        have hopen := (lexeme_eq_error.1 hl).imp And.left And.left
        exact ⟨[], b :: t, rfl, trivial, .inr hopen⟩
      | ok found =>
        obtain ⟨kind, u⟩ := found
        obtain ⟨ks, rest, rfl, hks, hrest⟩ := ih u.length (lexeme_length hl) u rfl
        obtain ⟨x, hx, hk⟩ := lexeme_eq_ok.1 hl
        refine ⟨⟨kind, x⟩ :: ks, rest, ?_, ⟨hk, hks⟩, hrest⟩
        rw [hx, code_cons, List.append_assoc]

/-- Where the comments can be taken out and every string has its end, the whole text is code. -/
theorem exists_code_of_strip {s : Stripped} (h : strip t = .ok s) (hclosed : ¬HoldsUnclosedString t) :
    ∃ ks, t = code ks ∧ Lexes ks [] := by
  unfold strip at h
  split at h
  · exact exists_code_of_stripLexemes h
  · next hslash =>
    obtain ⟨ks, rest, rfl, hks, rfl | hopen | hopen⟩ := exists_code t
    · exact ⟨ks, List.append_nil _, hks⟩
    · obtain ⟨hbetween, hdrop⟩ := CodeBetween.of_drop (Nat.zero_le _) List.drop_zero hks
      exact absurd ⟨_, ks, hbetween, hdrop.symm ▸ hopen⟩ hclosed
    · obtain ⟨inside, rfl, -⟩ := hopen
      simp [blockStart] at hslash

/-- A text that is read to its end holds no string without its end. -/
theorem not_holdsUnclosedString (h : Lexes ks []) : ¬HoldsUnclosedString (code ks) := by
  rintro ⟨place, js, hjs, quote, u, hrest, hq, hno⟩
  have hread := hjs.drop_eq
  rw [List.drop_zero, hrest] at hread
  have hlexes := hjs.lexes
  rw [hrest] at hlexes
  obtain ⟨ms, rfl⟩ := hlexes.isPrefix h (by rw [← hread, List.append_nil]) (Nat.zero_le _)
  rw [code_append] at hread
  have hms := List.append_cancel_left hread
  cases ms with
  | nil => cases hms
  | cons k ms =>
    obtain ⟨b, v, hk, hl⟩ := (lexes_append.1 h).2.1.exists_lexeme
    rw [code_cons, hk] at hms
    obtain ⟨rfl, rfl⟩ := List.cons.inj hms
    have hopen : UnclosedString (b :: (v ++ code ms)) := ⟨b, _, rfl, hq, hno⟩
    rw [List.append_nil, lexeme_eq_error.2 (.inl ⟨hopen, rfl⟩)] at hl
    cases hl

theorem strip_bare (h : Lexes ks []) : strip (code (ks.map Token.bare)) = .ok ⟨code (ks.map Token.bare), 0⟩ := by
  have hno : ∀ k ∈ ks.map Token.bare, k.kind ≠ .comment := kind_of_mem_bare
  rw [strip_code (lexes_bare h), map_bare_eq_self hno, comments_eq_zero.2 hno]

/-- Taking out comments once more changes nothing, also where a text was not read at all. -/
theorem strip_strip {s : Stripped} (h : strip t = .ok s) : strip s.code = .ok ⟨s.code, 0⟩ := by
  by_cases hslash : t.contains (ascii '/') = true
  · unfold strip at h
    rw [if_pos hslash] at h
    obtain ⟨ks, rfl, hks⟩ := exists_code_of_stripLexemes h
    rw [stripLexemes_code hks, Except.ok.injEq] at h
    subst h
    exact strip_bare hks
  · have hsame : strip t = .ok ⟨t, 0⟩ := if_neg hslash
    rw [hsame, Except.ok.injEq] at h
    subst h
    exact hsame

theorem isBare_bare (h : Lexes ks []) : IsBare (code (ks.map Token.bare)) := by
  apply (alternates_code (lexes_bare h)).isBare
  rw [← List.length_eq_zero_iff, length_alternation, comments_eq_zero]
  exact kind_of_mem_bare

/-- What taking out the comments of a text says: how the text is read, what is left of it, that nothing is left to be
taken out, and when the text is handed out as it stands. -/
structure StripsExactly (t : Text) (s : Stripped) (d : Alternation) : Prop where
  alternates_iff : ∀ d', Alternates t d' ↔ d' = d
  text_eq : d.text = t
  bare_codes : ∀ c ∈ d.codes, IsBare c
  code_eq : s.code = d.bare
  bare : IsBare s.code
  again : strip s.code = .ok ⟨s.code, 0⟩
  borrowed_iff : s.isBorrowed = true ↔ d.more = []
  same_iff : s.code = t ↔ d.more = []

/-- **Taking out comments is exact**, and nothing is left to be taken out. -/
theorem strip_exact {t : Text} {s : Stripped} (h : strip t = .ok s) (hclosed : ¬HoldsUnclosedString t) :
    ∃ d, StripsExactly t s d := by
  have hagain := strip_strip h
  obtain ⟨ks, rfl, hks⟩ := exists_code_of_strip h hclosed
  rw [strip_code hks, Except.ok.injEq] at h
  subst h
  have hread := alternates_code hks
  exact ⟨alternation ks, {
    alternates_iff := fun _ => alternates_code_iff hks
    text_eq := hread.text_eq
    bare_codes := hread.isBare_of_mem_codes
    code_eq := (bare_alternation ks).symm
    bare := isBare_bare hks
    again := hagain
    borrowed_iff := by rw [Stripped.isBorrowed, beq_iff_eq, ← length_alternation, List.length_eq_zero_iff]
    same_iff := by rw [← bare_alternation, hread.bare_eq_iff]
  }⟩

/-- Comments of both kinds, and what looks like one in a string. -/
theorem strip_exact_around_string :
    ∃ d, StripsExactly (utf8 "a/*b*/'/*'//c\n\\/") ⟨utf8 "a '/*' \n\\/", 2⟩ d := by
  have hstrip : strip (utf8 "a/*b*/'/*'//c\n\\/") = .ok ⟨utf8 "a '/*' \n\\/", 2⟩ := by decide +kernel
  have hslash : stripLexemes (utf8 "a/*b*/'/*'//c\n\\/") = .ok ⟨utf8 "a '/*' \n\\/", 2⟩ := by decide +kernel
  obtain ⟨ks, hcode, hks⟩ := exists_code_of_stripLexemes hslash
  exact strip_exact hstrip (hcode ▸ not_holdsUnclosedString hks)

/-! ## Texts that are not read -/

/-- Reading stops behind code, at a string or a comment without its end. -/
theorem stripLexemes_of_error {b : UInt8} {u : Text} {e : Fault ScanCause} (hks : Lexes ks (b :: u))
    (he : lexeme b u = .error e) : stripLexemes (code ks ++ b :: u) = .error e := by
  induction ks with
  | nil =>
    rw [code_nil, List.nil_append, stripLexemes]
    split
    · next he' => rw [he] at he'; cases he'; rfl
    all_goals next he' => rw [he] at he'; cases he'
  | cons k ks ih =>
    obtain ⟨c, v, hc, hl⟩ := hks.1.exists_lexeme
    have hcode : code (k :: ks) ++ b :: u = c :: (v ++ (code ks ++ b :: u)) := by
      rw [code_cons, hc, List.append_assoc]
      rfl
    rw [hcode, stripLexemes]
    split
    · next he' => rw [hl] at he'; cases he'
    all_goals
      next he' =>
      rw [hl, Except.ok.injEq, Prod.mk.injEq] at he'
      obtain ⟨-, rfl⟩ := he'
      rw [ih hks.2]
      rfl

/-- The place of a string without its end is where reading stops. -/
theorem stripLexemes_of_unclosedString {place : Nat} (hks : CodeBetween t 0 place ks)
    (hopen : UnclosedString (t.drop place)) : fromOffset t 0 stripLexemes = .error ⟨.unclosedString, place⟩ := by
  obtain ⟨quote, u, hdrop, hquote, hend⟩ := hopen
  apply fromOffset_eq_error hks.stop_le rfl
  have hfault : lexeme quote u = .error ⟨.unclosedString, t.length - place⟩ := by
    rw [← List.length_drop, hdrop]
    exact lexeme_eq_error.2 (.inl ⟨⟨quote, u, rfl, hquote, hend⟩, rfl⟩)
  have hlexes := hks.lexes
  rw [hdrop] at hlexes
  rw [hks.drop_eq, hdrop]
  exact stripLexemes_of_error hlexes hfault

/-- **Not to read a text without a slash makes a difference exactly if a string in it has no end.** Then the text is
handed out as it stands, and reading it would have stopped at that string. -/
theorem strip_eq_stripLexemes_iff (t : Text) :
    (strip t = stripLexemes t ↔ ascii '/' ∈ t ∨ ¬HoldsUnclosedString t) ∧
      ∀ place ks, ascii '/' ∉ t → CodeBetween t 0 place ks → UnclosedString (t.drop place) →
        strip t = .ok ⟨t, 0⟩ ∧ fromOffset t 0 stripLexemes = .error ⟨.unclosedString, place⟩ := by
  have hplain : ascii '/' ∉ t → strip t = .ok ⟨t, 0⟩ := by
    intro hslash
    exact if_neg (by simpa using hslash)
  refine ⟨?_, fun place ks hslash hks hopen => ⟨hplain hslash, stripLexemes_of_unclosedString hks hopen⟩⟩
  by_cases hslash : ascii '/' ∈ t
  · have hread : strip t = stripLexemes t := if_pos (by simpa using hslash)
    exact iff_of_true hread (.inl hslash)
  · constructor
    · rintro heq
      refine .inr ?_
      rintro ⟨place, ks, hks, hopen⟩
      have hstop := stripLexemes_of_unclosedString hks hopen
      rw [fromOffset, List.drop_zero, ← heq, hplain hslash] at hstop
      cases hstop
    · rintro (h | hclosed)
      · exact absurd h hslash
      · obtain ⟨ks, rfl, hks⟩ := exists_code_of_strip (hplain hslash) hclosed
        rw [strip_code hks, stripLexemes_code hks]

/-- The quote has no partner. Without a slash the text is handed out, and with one the quote is reported. -/
theorem strip_overlooks_string : strip (utf8 "don't") = .ok ⟨utf8 "don't", 0⟩ ∧
    fromOffset (utf8 "don't") 0 stripLexemes = .error ⟨.unclosedString, 3⟩ ∧
    fromOffset (utf8 "don't/") 0 strip = .error ⟨.unclosedString, 3⟩ := by
  refine ⟨by decide +kernel, by decide +kernel, by decide +kernel⟩

end Scan

end PhpClass
