import PhpClass.Proofs.Nesting
import PhpClass.Proofs.Span
import PhpClass.Proofs.WholeScan

/-!
# Splitting loses nothing

A comma of a text separates two parts of it if it stands outside strings, comments and brackets (`Separates`). A text
falls into parts at the first such comma, and so on behind that one (`Splits`). Splitting finds these parts, none of
which falls into parts again, and with the commas between them they are the text (`splitAt_loses_nothing`).

Between two places of a source a string or a comment can go on behind the second place. Nothing is lost then
either.
-/

namespace PhpClass

open Text

namespace Scan

/-- At the place there is a comma that separates two parts of the text. -/
def Separates (t : Text) (place : Nat) : Prop :=
  ∃ ks, CodeBetween t 0 place ks ∧ t[place]? = some (ascii ',') ∧ ¬Nested (codeBytes ks)

/-- The parts that a text falls into at the commas that separate them. -/
inductive Splits : Text → List Text → Prop
  | whole {t : Text} (hno : ∀ p, ¬Separates t p) : Splits t [t]
  | cut {s t : Text} {ts : List Text} (hs : Separates (s ++ ascii ',' :: t) s.length)
      (hfirst : ∀ p, Separates (s ++ ascii ',' :: t) p → s.length ≤ p) (ht : Splits t ts) :
      Splits (s ++ ascii ',' :: t) (s :: ts)

/-! ## The first comma -/

/-- Tokens are a single part, or the first part is in front of a comma that is met with no bracket open. -/
theorem parts_cases (depth : Nat) (ks : List Token) : parts depth ks = [ks] ∨ ∃ js ms, ks = js ++ comma :: ms ∧
    js.foldl (fun depth k => k.nest depth) depth = 0 ∧ parts depth js = [js] ∧ parts depth ks = js :: parts 0 ms := by
  induction ks generalizing depth with
  | nil => exact .inl rfl
  | cons k ks ih =>
    rw [parts]
    split
    · next hd =>
      obtain ⟨rfl, rfl⟩ := hd
      exact .inr ⟨[], ks, rfl, rfl, rfl, rfl⟩
    · next hd =>
      rcases ih (k.nest depth) with hone | ⟨js, ms, rfl, hzero, hjs, hks⟩
      · rw [hone]
        exact .inl rfl
      · rw [hks]
        refine .inr ⟨k :: js, ms, rfl, hzero, ?_, rfl⟩
        rw [parts, if_neg hd, hjs]
        rfl

/-- In a single part every comma is met inside brackets. -/
theorem foldl_nest_ne_zero {js ms : List Token} {depth : Nat} (h : parts depth (js ++ comma :: ms) = [js ++ comma :: ms]) :
    js.foldl (fun depth k => k.nest depth) depth ≠ 0 := by
  intro hzero
  rw [parts_append (whole_of_append h), hzero, parts, if_pos ⟨rfl, rfl⟩, List.modifyHead_cons] at h
  exact parts_ne_nil 0 ms (List.cons.inj h).2

/-- Where commas separate the parts of a text, by its tokens. -/
theorem separates_code {ks : List Token} (h : Lexes ks []) {p : Nat} : Separates (code ks) p ↔
    ∃ js ms, ks = js ++ comma :: ms ∧ p = (code js).length ∧ js.foldl (fun depth k => k.nest depth) 0 = 0 := by
  unfold Separates
  constructor
  · rintro ⟨js, hjs, hcomma, hnest⟩
    obtain ⟨hlt, hdrop⟩ := exists_drop_of_getElem? hcomma
    have hall := hjs.drop_eq
    have hread : Lexes (js ++ [comma]) ((code ks).drop (p + 1)) := by
      rw [lexes_append, lexes_cons]
      refine ⟨?_, stands_comma _, trivial⟩
      have hlexes := hjs.lexes
      rwa [hdrop] at hlexes
    have htext : code (js ++ [comma]) ++ (code ks).drop (p + 1) = code ks ++ [] := by
      rw [List.append_nil, code_append, List.append_assoc]
      rw [List.drop_zero, hdrop] at hall
      exact hall.symm
    obtain ⟨ms, rfl⟩ := hread.isPrefix h htext (Nat.zero_le _)
    refine ⟨js, ms, by rw [List.append_assoc]; rfl, by rw [hjs.stop_eq, Nat.zero_add], ?_⟩
    rw [← foldl_nest_codeBytes]
    exact not_not.1 (nested_iff.not.1 hnest)
  · rintro ⟨js, ms, rfl, rfl, hzero⟩
    rw [lexes_append, List.append_nil] at h
    rw [code_append]
    obtain ⟨hjs, hdrop⟩ := CodeBetween.of_drop (Nat.zero_le _) List.drop_zero h.1
    rw [Nat.zero_add] at hjs hdrop
    refine ⟨js, hjs, getElem?_of_drop hdrop, ?_⟩
    rw [nested_iff, foldl_nest_codeBytes]
    exact not_not.2 hzero

/-- No comma separates anything inside the first part. -/
theorem length_le_of_separates {js ms : List Token} (h : Lexes (js ++ comma :: ms) []) (hjs : parts 0 js = [js])
    {p : Nat} (hp : Separates (code (js ++ comma :: ms)) p) : (code js).length ≤ p := by
  obtain ⟨is, ls, he, rfl, hzero⟩ := (separates_code h).1 hp
  by_contra hlt
  rcases List.append_eq_append_iff.1 he with ⟨a, rfl, -⟩ | ⟨a, rfl, hms⟩
  · rw [code_append, List.length_append] at hlt
    omega
  · cases a with
    | nil => simp at hlt
    | cons k a =>
      obtain ⟨rfl, rfl⟩ := List.cons.inj hms
      exact foldl_nest_ne_zero hjs hzero

/-- The parts of a text are the parts of its tokens. -/
theorem splits_code {ks : List Token} (h : Lexes ks []) : Splits (code ks) ((parts 0 ks).map code) := by
  induction hn : ks.length using Nat.strongRecOn generalizing ks with
  | ind n ih =>
    subst hn
    rcases parts_cases 0 ks with hone | ⟨js, ms, rfl, hzero, hjs, hparts⟩
    · rw [hone]
      refine .whole fun p hp => ?_
      obtain ⟨is, ms, rfl, -, hzero⟩ := (separates_code h).1 hp
      exact foldl_nest_ne_zero hone hzero
    · have hshort : ms.length < (js ++ comma :: ms).length := by
        rw [List.length_append, List.length_cons]
        omega
      have hrest := ih ms.length hshort (lexes_append.1 h).2.2 rfl
      have hhere := (separates_code h).2 ⟨js, ms, rfl, rfl, hzero⟩
      have hfirst : ∀ p, Separates (code (js ++ comma :: ms)) p → (code js).length ≤ p := by
        intro p hp
        exact length_le_of_separates h hjs hp
      rw [code_append, code_cons] at hhere hfirst ⊢
      rw [hparts, List.map_cons]
      exact .cut hhere hfirst hrest

/-! ## Splitting a text -/

/-- A text that is split to its end is code. -/
theorem exists_code_of_splitFirst {limit depth : Nat} {t : Text} {ps : List Text}
    (h : splitFirst limit depth t = .ok ps) (hle : t.length ≤ limit) : ∃ ks, t = code ks ∧ Lexes ks [] := by
  fun_induction splitFirst limit depth t generalizing ps with
  | case1 t =>
    obtain rfl := List.length_eq_zero_iff.1 (Nat.le_zero.1 hle)
    exact ⟨[], rfl, trivial⟩
  | case2 => exact ⟨[], rfl, trivial⟩
  | case3 => cases h
  | case4 _ _ _ _ _ hl _ ih =>
    obtain ⟨more, hmore, -⟩ := bind_eq_ok.1 h
    have hlength := lexeme_length hl
    exact exists_code_of_lexeme hl (ih hmore (by omega))
  | case5 _ _ _ _ _ hl _ ih =>
    obtain ⟨more, hmore, -⟩ := bind_eq_ok.1 h
    have hlength := lexeme_length hl
    exact exists_code_of_lexeme hl (ih hmore (by omega))
  | case6 _ _ b t _ rest _ hl read =>
    rename_i ih
    obtain ⟨more, hmore, -⟩ := bind_eq_ok.1 h
    have hread : upTo (b :: t) rest ++ rest = b :: t :=
      upTo_append_rest ((lexeme_suffix hl).trans (List.suffix_cons b t))
    have hlength : read.length + rest.length = (b :: t).length := by rw [← List.length_append, hread]
    exact exists_code_of_lexeme hl (ih hmore (by omega))

/-- What a text is split into are its parts. -/
theorem splits_of_split {t : Text} {ps : List Text} (h : split t = .ok ps) : Splits t ps := by
  obtain ⟨ks, rfl, hks⟩ := exists_code_of_splitFirst h (Nat.le_refl _)
  rw [split_code hks, Except.ok.injEq] at h
  subst h
  exact splits_code hks

theorem isBoundary_zero (t : Text) : isBoundary t 0 = true := by
  cases t <;> rfl

theorem isBoundary_length (t : Text) : isBoundary t t.length = true := by
  simp [isBoundary]

/-- Splitting a whole text. -/
theorem splitAt_length {t : Text} {ps : List Text} : splitAt t 0 t.length = .ok ps ↔ split t = .ok ps := by
  rw [splitAt_eq_ok (Nat.zero_le _) (isBoundary_zero t) (by rw [Nat.min_self]; exact isBoundary_length t),
    Nat.min_self, Nat.sub_zero, List.drop_zero, split]

/-- What splitting a whole text says about its parts. -/
structure SplitsWhole (source : Text) (ps : List Text) : Prop where
  ne_nil : ps ≠ []
  join_eq : join [ascii ','] ps = source
  atomic : ∀ part ∈ ps, splitAt part 0 part.length = .ok [part]
  splits : Splits source ps

/-- **Splitting loses nothing and splits completely.** -/
theorem splitAt_loses_nothing (source : Text) :
    (∀ ps, splitAt source 0 source.length = .ok ps → SplitsWhole source ps) ∧
      ∀ start stop ps, start ≤ stop → stop ≤ source.length → isBoundary source start = true →
        isBoundary source stop = true → splitAt source start stop = .ok ps →
          join [ascii ','] ps = (source.take stop).drop start := by
  constructor
  · intro ps h
    have hsplit := splitAt_length.1 h
    obtain ⟨ks, rfl, hks⟩ := exists_code_of_splitFirst hsplit (Nat.le_refl _)
    obtain ⟨hne, hjoin⟩ := splitFirst_join hsplit
    rw [split_code hks] at hsplit
    cases hsplit
    refine ⟨hne, hjoin.trans List.take_length, ?_, splits_code hks⟩
    intro part hpart
    obtain ⟨p, hp, rfl⟩ := List.mem_map.1 hpart
    have hone : parts 0 p = [p] := by
      obtain ⟨q, qs, hq⟩ := List.exists_cons_of_ne_nil (parts_ne_nil 0 ks)
      obtain ⟨hfirst, hmore⟩ := parts_of_mem_parts hq
      rw [hq] at hp
      rcases List.mem_cons.1 hp with rfl | hp
      · exact hfirst
      · exact hmore p hp
    rw [splitAt_length, split_code (lexes_of_mem_parts hks hp), hone]
    rfl
  · intro start stop ps hle hstop hbstart hbstop h
    have hmin : min stop source.length = stop := Nat.min_eq_left hstop
    exact (splitAt_join (Nat.le_trans hle hstop) hbstart (hmin.symm ▸ hbstop) h).2

/-- Commas in brackets and in strings are not cut at, and a string may go on behind the range. -/
theorem splits_call_and_string : SplitsWhole (utf8 "f(a, b), 'c, d'") [utf8 "f(a, b)", utf8 " 'c, d'"] ∧
    join [ascii ','] [utf8 " 'c,"] = ((utf8 "f(a, b), 'c, d'").take 12).drop 8 := by
  obtain ⟨hwhole, hrange⟩ := splitAt_loses_nothing (utf8 "f(a, b), 'c, d'")
  refine ⟨hwhole _ (by decide +kernel), ?_⟩
  exact hrange 8 12 _ (by decide) (by decide) (by decide) (by decide) (by decide +kernel)

end Scan

end PhpClass
