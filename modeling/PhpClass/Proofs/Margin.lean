import PhpClass.Proofs.Stripping
import PhpClass.Proofs.Trim

/-!
# In front of the code

White space and comments can stand in front of the code of a text (`MarginTo`). The code begins in one place
(`MarginTo.unique`), between two characters (`MarginTo.ahead`). Once the comments are taken out of the text, what is
trimmed off at its front is shorter than what stands there, by all but one byte of each comment (`exists_margin`).
-/

namespace PhpClass

open Text

namespace SpaceTable

/-! ## White space characters -/

/-- One white space character. -/
inductive IsCharacter (s : SpaceTable) : Text → Prop
  | one {b : UInt8} (h : s.one b = true) : IsCharacter s [b]
  | two {b c : UInt8} (h : s.two b c = true) : IsCharacter s [b, c]
  | three {b c d : UInt8} (h : s.three b c d = true) : IsCharacter s [b, c, d]

variable {s : SpaceTable} {w t : Text}

theorem IsCharacter.starts (h : s.IsCharacter w) (t : Text) : s.starts (w ++ t) = true := by
  apply starts_append
  cases h with
  | one h => exact h
  | two h => simp [SpaceTable.starts, h]
  | three h => simp [SpaceTable.starts, h]

theorem exists_character (h : s.starts t = true) : ∃ w u, t = w ++ u ∧ s.IsCharacter w := by
  match t with
  | [] => cases h
  | [b] => exact ⟨[b], [], rfl, .one h⟩
  | [b, c] =>
    rcases Bool.or_eq_true _ _ ▸ h with h | h
    · exact ⟨[b], [c], rfl, .one h⟩
    · exact ⟨[b, c], [], rfl, .two h⟩
  | b :: c :: d :: t =>
    simp only [SpaceTable.starts, Bool.or_eq_true] at h
    rcases h with (h | h) | h
    · exact ⟨[b], c :: d :: t, rfl, .one h⟩
    · exact ⟨[b, c], d :: t, rfl, .two h⟩
    · exact ⟨[b, c, d], t, rfl, .three h⟩

theorem IsCharacter.within (h : forward.IsCharacter w) : Within isPart w := by
  cases h with
  | one h => simpa using isPart_of_one _ h
  | two h => simpa using isPart_of_two h
  | three h => simpa using isPart_of_three h

theorem isUtf8_three : ∀ d : UInt8, (0x80 ≤ d && d ≤ 0x8A) = true → isUtf8 [0xE2, 0x80, d] = true :=
  Byte.forall_of_fin (by decide +kernel)

theorem IsCharacter.isUtf8 (h : forward.IsCharacter w) : isUtf8 w = true := by
  cases h with
  | @one b h =>
    have hall : ∀ b, forward.one b = true → Text.isUtf8 [b] = true := Byte.forall_of_fin (by decide +kernel)
    exact hall b h
  | two h =>
    simp only [forward, Bool.and_eq_true, Bool.or_eq_true, beq_iff_eq] at h
    obtain ⟨rfl, rfl | rfl⟩ := h <;> decide
  | three h =>
    simp only [forward, Bool.and_eq_true, Bool.or_eq_true, beq_iff_eq, decide_eq_true_eq] at h
    rcases h with ((⟨⟨rfl, rfl⟩, rfl⟩ | ⟨⟨rfl, rfl⟩, ((hd | rfl) | rfl) | rfl⟩) | ⟨⟨rfl, rfl⟩, rfl⟩) | ⟨⟨rfl, rfl⟩, rfl⟩
    · decide
    · exact isUtf8_three _ (by simpa using hd)
    all_goals decide

theorem IsCharacter.drop (h : forward.IsCharacter w) (t : Text) : forward.drop (w ++ t) = forward.drop t := by
  cases h with
  | one h => exact drop_cons_one h t
  | two h =>
    simp only [forward, Bool.and_eq_true, Bool.or_eq_true, beq_iff_eq] at h
    obtain ⟨rfl, rfl | rfl⟩ := h <;> cases t <;> simp [SpaceTable.drop, forward]
  | @three b c d h =>
    have hone : forward.one b = false ∧ forward.two b c = false := by
      simp only [forward, Bool.and_eq_true, Bool.or_eq_true, beq_iff_eq, decide_eq_true_eq] at h
      rcases h with ((⟨⟨rfl, rfl⟩, -⟩ | ⟨⟨rfl, rfl⟩, -⟩) | ⟨⟨rfl, rfl⟩, -⟩) | ⟨⟨rfl, rfl⟩, -⟩ <;> decide
    simp [SpaceTable.drop, hone.1, hone.2, h]

/-- A space is a character of its own. -/
theorem IsCharacter.space_not_mem (h : forward.IsCharacter w) : w.length = 1 ∨ Byte.space ∉ w := by
  have hspace : Byte.isBlank Byte.space = true := by decide
  cases h with
  | one => exact .inl rfl
  | @two b c h =>
    right
    intro hmem
    simp only [List.mem_cons, List.not_mem_nil, or_false] at hmem
    rcases hmem with rfl | rfl
    · rw [(two_three_of_isBlank hspace c c).2.1] at h
      cases h
    · rw [(two_three_of_isBlank hspace b b).1.1] at h
      cases h
  | @three b c d h =>
    right
    intro hmem
    simp only [List.mem_cons, List.not_mem_nil, or_false] at hmem
    rcases hmem with rfl | rfl | rfl
    · rw [(two_three_of_isBlank hspace c d).2.2] at h
      cases h
    · rw [(two_three_of_isBlank hspace b d).1.2.1] at h
      cases h
    · rw [(two_three_of_isBlank hspace b c).1.2.2] at h
      cases h

/-- The first byte of a white space character tells its length. -/
theorem IsCharacter.length_eq {b : UInt8} (h : forward.IsCharacter w) (hb : w.head? = some b) :
    w.length = if b < 0x80 then 1 else if b = 0xC2 then 2 else 3 := by
  cases h with
  | @one b h =>
    have hall : ∀ b, forward.one b = true → b < 0x80 := Byte.forall_of_fin (by decide +kernel)
    cases hb
    rw [if_pos (hall b h)]
    rfl
  | two h =>
    cases hb
    simp only [forward, Bool.and_eq_true, beq_iff_eq] at h
    rw [h.1]
    rfl
  | three h =>
    cases hb
    simp only [forward, Bool.and_eq_true, Bool.or_eq_true, beq_iff_eq] at h
    rcases h with ((⟨⟨rfl, -⟩, -⟩ | ⟨⟨rfl, -⟩, -⟩) | ⟨⟨rfl, -⟩, -⟩) | ⟨⟨rfl, -⟩, -⟩ <;> rfl

theorem IsCharacter.ne_nil (h : s.IsCharacter w) : w ≠ [] := by
  cases h <;> exact List.cons_ne_nil _ _

theorem IsCharacter.unique {v u : Text} (hw : forward.IsCharacter w) (hv : forward.IsCharacter v)
    (h : w ++ t = v ++ u) : w = v ∧ t = u := by
  obtain ⟨b, w, rfl⟩ := List.exists_cons_of_ne_nil hw.ne_nil
  obtain ⟨c, v, rfl⟩ := List.exists_cons_of_ne_nil hv.ne_nil
  obtain rfl : b = c := (List.cons.inj h).1
  apply List.append_inj h
  rw [hw.length_eq rfl, hv.length_eq rfl]

end SpaceTable

namespace Scan

open SpaceTable

/-! ## Margins -/

/-- The text is a sequence of white space characters and whole comments, these ones, and then the rest. -/
inductive MarginTo : Text → List Text → Text → Prop
  | nil {t : Text} : MarginTo t [] t
  | space {w t rest : Text} {cs : List Text} (hw : forward.IsCharacter w) (h : MarginTo t cs rest) :
      MarginTo (w ++ t) cs rest
  | comment {k inside t rest : Text} {cs : List Text} (hk : IsComment k inside t) (h : MarginTo t cs rest) :
      MarginTo (k ++ t) (k :: cs) rest

/-- The text begins with neither white space nor a comment. -/
structure BeginsCode (t : Text) : Prop where
  ne_nil : t ≠ []
  no_space : forward.starts t = false
  no_comment : ¬BeginsComment t

/-- The bytes that are lost when a space is put in the place of each comment. -/
def lostBytes : List Text → Nat
  | [] => 0
  | k :: cs => k.length - 1 + lostBytes cs

variable {t rest : Text} {cs : List Text}

theorem MarginTo.suffix (h : MarginTo t cs rest) : rest <:+ t := by
  induction h with
  | nil => exact List.suffix_rfl
  | space _ _ ih | comment _ _ ih => exact ih.trans (List.suffix_append _ _)

/-- Each comment has more than one byte. -/
theorem MarginTo.lostBytes_eq_zero_iff (h : MarginTo t cs rest) : lostBytes cs = 0 ↔ cs = [] := by
  induction h with
  | nil => exact iff_of_true rfl rfl
  | space _ _ ih => exact ih
  | comment hk _ _ =>
    have htwo := hk.two_le_length
    refine iff_of_false ?_ (List.cons_ne_nil _ _)
    rw [lostBytes]
    omega

/-! ## Characters -/

/-- A comment ends between two characters, where no character of the next text goes on in it. -/
theorem IsComment.ahead {k inside more : Text} (h : IsComment k inside t) (hne : t ≠ [])
    (hs : isUtf8 (k ++ (t ++ more)) = true) : Ahead (k ++ (t ++ more)) (t ++ more) := by
  have hcomment : comment? (k ++ (t ++ more)) = .ok (some (inside, t ++ more)) := by
    refine comment?_eq_some_iff.2 ⟨k, ?_, rfl⟩
    cases h with
    | block hi => exact .block hi
    | line hi hr => exact .line hi (hr.append hne)
  obtain ⟨v, w, -, -, hin, -, hrest⟩ := comment?_ahead hs hcomment
  exact (hin.ahead.trans hin.ahead_end).trans hrest

/-- White space and comments end between two characters. -/
theorem MarginTo.ahead {source more : Text} (h : MarginTo t cs rest) (hne : rest ≠ []) (ht : Ahead source (t ++ more)) :
    Ahead source (rest ++ more) := by
  induction h with
  | nil => exact ht
  | @space w t rest cs hw h ih =>
    refine ih hne (ht.trans ⟨?_, ?_⟩)
    · rw [List.append_assoc]
      exact List.suffix_append _ _
    · rw [← isUtf8_append hw.isUtf8, ← List.append_assoc]
      exact ht.utf8
  | @comment k inside t rest cs hk h ih =>
    have htne : t ≠ [] := by
      rintro rfl
      exact hne (List.suffix_nil.1 h.suffix)
    rw [List.append_assoc] at ht
    exact ih hne (ht.trans (hk.ahead htne ht.utf8))

/-! ## Taking out comments -/

variable {ks : List Token}

theorem map_bare_bytes (w : Text) : (bytes w).map Token.bare = bytes w :=
  map_bare_eq_self fun k hk => by rw [kind_of_mem_bytes hk]; decide

/-- Bytes other than spaces stand for themselves. -/
theorem exists_bytes_of_bare {w : Text} {ms : List Token} (h : ks.map Token.bare = bytes w ++ ms)
    (hw : Byte.space ∉ w) : ∃ js, ks = bytes w ++ js := by
  induction w generalizing ks with
  | nil => exact ⟨ks, rfl⟩
  | cons b w ih =>
    rw [List.mem_cons, not_or] at hw
    obtain ⟨hb, hw⟩ := hw
    cases ks with
    | nil => cases h
    | cons k ks =>
      obtain ⟨hk, hks⟩ := List.cons.inj h
      obtain ⟨js, rfl⟩ := ih hks hw
      have hkind : k.kind ≠ .comment := by
        intro hkind
        rw [bare_of_comment hkind] at hk
        cases hk
        exact hb rfl
      rw [bare_of_ne hkind] at hk
      exact ⟨js, by rw [hk]; rfl⟩

/-- No white space comes about where a space is put in the place of a comment further on. -/
theorem starts_bare {k : Token} (h : Lexes (k :: ks) []) (hk : k.kind ≠ .comment)
    (hs : forward.starts (code (k :: ks)) = false) : forward.starts (code ((k :: ks).map Token.bare)) = false := by
  rw [Bool.eq_false_iff]
  intro hbare
  obtain ⟨w, u, hcode, hw⟩ := exists_character hbare
  obtain ⟨ms, hms, -⟩ := exists_of_plain_append (hw.within.mono isPlain_of_isPart) (lexes_bare h) hcode
  have hfirst : ∃ js, k :: ks = bytes w ++ js := by
    rcases hw.space_not_mem with hone | hspace
    · obtain ⟨b, rfl⟩ := List.length_eq_one_iff.1 hone
      obtain ⟨hb, -⟩ := List.cons.inj hms
      rw [bare_of_ne hk] at hb
      exact ⟨ks, by rw [hb]; rfl⟩
    · exact exists_bytes_of_bare hms hspace
  obtain ⟨js, hjs⟩ := hfirst
  rw [hjs, code_append, code_bytes, hw.starts] at hs
  cases hs

theorem IsComment.begins {k inside : Text} (h : IsComment k inside t) : BeginsComment k := by
  cases h with
  | block =>
    rw [List.append_assoc]
    exact .inl (List.prefix_append _ _)
  | line => exact .inr (List.prefix_append _ _)

theorem Stands.not_beginsComment {k : Token} (h : Stands k rest) (hk : k.kind ≠ .comment) :
    ¬BeginsComment (k.text ++ rest) := by
  rw [← comment?_eq_none]
  cases h with
  | @quoted q s _ hq _ =>
    have hslash : q ≠ ascii '/' := by
      rintro rfl
      cases hq
    exact comment?_eq_none_of_ne hslash _
  | block | line => exact absurd rfl hk
  | byte _ hc => exact hc

/-- In front of the code of a text stands as much white space when its comments are taken out as there stood in all,
but for the bytes that are lost. -/
theorem MarginTo.exists_rest (h : MarginTo t cs rest) (hks : Lexes ks []) (ht : t = code ks) : ∃ js, rest = code js ∧
    Lexes js [] ∧ trimStart (code (ks.map Token.bare)) = trimStart (code (js.map Token.bare)) ∧
    (code (ks.map Token.bare)).length + lostBytes cs + rest.length = t.length + (code (js.map Token.bare)).length := by
  induction h generalizing ks with
  | nil => exact ⟨ks, ht, hks, rfl, Nat.add_comm _ _⟩
  | @space w t rest cs hw _ ih =>
    obtain ⟨ms, rfl, rfl⟩ := exists_of_plain_append (hw.within.mono isPlain_of_isPart) hks ht.symm
    obtain ⟨js, hrest, hjs, htrim, hlength⟩ := ih (lexes_append.1 hks).2 rfl
    refine ⟨js, hrest, hjs, ?_, ?_⟩
    · rw [List.map_append, map_bare_bytes, code_append, code_bytes, ← htrim]
      exact hw.drop _
    · rw [List.map_append, map_bare_bytes, code_append, code_bytes, List.length_append, List.length_append]
      omega
  | @comment k inside t rest cs hk _ ih =>
    have htwo := hk.two_le_length
    cases ks with
    | nil =>
      obtain ⟨rfl, -⟩ := List.append_eq_nil_iff.1 ht
      cases htwo
    | cons j ms =>
      have hstands : Stands ⟨.comment, k⟩ t := stands_comment.2 ⟨inside, hk⟩
      obtain rfl : j = ⟨.comment, k⟩ := hks.1.unique hstands (by rw [List.append_nil, ← code_cons, ← ht])
      obtain ⟨js, hrest, hjs, htrim, hlength⟩ := ih hks.2 (List.append_cancel_left ht)
      refine ⟨js, hrest, hjs, ?_, ?_⟩
      · rw [List.map_cons, bare_of_comment rfl, code_cons, ← htrim]
        exact drop_cons_one (by decide) _
      · rw [List.map_cons, bare_of_comment rfl, code_cons, lostBytes, List.length_append, List.length_append,
          List.length_singleton]
        omega

/-- White space and comments are read up to something else. -/
theorem Lexes.exists_marginTo (h : Lexes ks []) : ∃ cs rest, MarginTo (code ks) cs rest ∧
    forward.starts rest = false ∧ ¬BeginsComment rest := by
  induction hn : ks.length using Nat.strongRecOn generalizing ks with
  | ind n ih =>
    subst hn
    cases hs : forward.starts (code ks) with
    | true =>
      obtain ⟨w, u, hcode, hw⟩ := exists_character hs
      obtain ⟨ms, rfl, rfl⟩ := exists_of_plain_append (hw.within.mono isPlain_of_isPart) h hcode
      have hshort : ms.length < (bytes w ++ ms).length := by
        have hpos := List.length_pos_iff.2 hw.ne_nil
        rw [List.length_append, bytes, List.length_map]
        omega
      obtain ⟨cs, rest, hmargin, hrest⟩ := ih _ hshort (lexes_append.1 h).2 rfl
      exact ⟨cs, rest, hcode ▸ .space hw hmargin, hrest⟩
    | false =>
      cases ks with
      | nil => exact ⟨[], [], .nil, rfl, by simp [BeginsComment, blockStart, lineStart]⟩
      | cons k ms =>
        by_cases hk : k.kind = .comment
        · obtain ⟨cs, rest, hmargin, hrest⟩ := ih _ (Nat.lt_succ_self _) h.2 rfl
          obtain ⟨kind, text⟩ := k
          obtain rfl : kind = .comment := hk
          obtain ⟨inside, hinside⟩ := stands_comment.1 h.1
          rw [List.append_nil] at hinside
          exact ⟨text :: cs, rest, .comment hinside hmargin, hrest⟩
        · have hno := h.1.not_beginsComment hk
          rw [List.append_nil] at hno
          exact ⟨[], code (k :: ms), .nil, hs, hno⟩

/-- What is trimmed off at the front of a text without its comments is what stands in front of its code, but for the
bytes that are lost. -/
theorem exists_margin {t : Text} {s : Stripped} (h : strip t = .ok s) (ht : ∃ ks, t = code ks ∧ Lexes ks [])
    (hspace : isSpace s.code = false) : ∃ cs rest, MarginTo t cs rest ∧ BeginsCode rest ∧
      s.code.length - (trimStart s.code).length + lostBytes cs = t.length - rest.length := by
  obtain ⟨ks, rfl, hks⟩ := ht
  rw [strip_code hks, Except.ok.injEq] at h
  subst h
  obtain ⟨cs, rest, hmargin, hstarts, hcomment⟩ := hks.exists_marginTo
  obtain ⟨js, rfl, hjs, htrim, hlength⟩ := hmargin.exists_rest hks rfl
  cases js with
  | nil =>
    have hnil : isSpace (code (ks.map Token.bare)) = true := List.isEmpty_iff.2 htrim
    rw [hnil] at hspace
    cases hspace
  | cons k js =>
    have hk : k.kind ≠ .comment := by
      intro hk
      obtain ⟨kind, text⟩ := k
      obtain rfl : kind = .comment := hk
      obtain ⟨inside, hinside⟩ := stands_comment.1 hjs.1
      exact hcomment (hinside.begins.mono (List.prefix_append _ _))
    have hcode : trimStart (code ((k :: js).map Token.bare)) = code ((k :: js).map Token.bare) :=
      drop_of_starts_eq_false (starts_bare hjs hk hstarts)
    refine ⟨cs, _, hmargin, ⟨?_, hstarts, hcomment⟩, ?_⟩
    · intro hnil
      cases code_eq_nil hjs hnil
    · have hle := hmargin.suffix.length_le
      have hbare : (trimStart (code (ks.map Token.bare))).length ≤ (code (ks.map Token.bare)).length := by
        obtain ⟨w, hw, -⟩ := exists_trimStart (code (ks.map Token.bare))
        have hlength := congrArg List.length hw
        rw [List.length_append] at hlength
        omega
      dsimp only
      rw [htrim, hcode] at hbare ⊢
      omega

/-! ## Where the code begins -/

theorem BeginsCode.not_character {w : Text} (h : BeginsCode (w ++ t)) (hw : forward.IsCharacter w) : False := by
  have hno := h.no_space
  rw [hw.starts] at hno
  cases hno

theorem IsComment.not_beginsCode {k inside : Text} (hk : IsComment k inside t) (h : BeginsCode (k ++ t)) : False :=
  h.no_comment (hk.begins.mono (List.prefix_append k t))

theorem IsComment.not_character {k w inside u : Text} (hk : IsComment k inside t) (hw : forward.IsCharacter w)
    (h : k ++ t = w ++ u) : False := by
  have hslash : ∀ b, isPart b = true → b ≠ ascii '/' := fun b hb => (plain_ne_slash b (isPlain_of_isPart b hb)).1
  have hwithin := hw.within
  cases hw with
  | one | two | three =>
    cases hk with
    | block | line =>
      simp only [blockStart, lineStart, List.cons_append, List.cons.injEq] at h
      exact hslash _ (hwithin _ List.mem_cons_self) h.1.symm

theorem IsComment.unique {k k' inside inside' t' : Text} (hk : IsComment k inside t) (hk' : IsComment k' inside' t')
    (h : k ++ t = k' ++ t') : k = k' ∧ t = t' := by
  have hread := comment?_eq_some_iff.2 ⟨k, hk, rfl⟩
  rw [h, comment?_eq_some_iff.2 ⟨k', hk', rfl⟩] at hread
  cases hread
  exact ⟨List.append_cancel_right h, rfl⟩

/-- The code of a text begins in one place, and these comments stand in front of it. -/
theorem MarginTo.unique {ds : List Text} {rest' : Text} (h : MarginTo t cs rest) (hrest : BeginsCode rest)
    (h' : MarginTo t ds rest') (hrest' : BeginsCode rest') : ds = cs ∧ rest' = rest := by
  induction h generalizing ds rest' with
  | nil =>
    cases h' with
    | nil => exact ⟨rfl, rfl⟩
    | space hw => exact (hrest.not_character hw).elim
    | comment hk => exact (hk.not_beginsCode hrest).elim
  | @space w t rest cs hw h ih =>
    generalize hall : w ++ t = all at h'
    cases h' with
    | nil => exact ((hall ▸ hrest').not_character hw).elim
    | space hw' h' =>
      obtain ⟨rfl, rfl⟩ := hw.unique hw' hall
      exact ih hrest h' hrest'
    | comment hk' => exact (hk'.not_character hw hall.symm).elim
  | @comment k inside t rest cs hk h ih =>
    generalize hall : k ++ t = all at h'
    cases h' with
    | nil => exact (hk.not_beginsCode (hall ▸ hrest')).elim
    | space hw' => exact (hk.not_character hw' hall).elim
    | comment hk' h' =>
      obtain ⟨rfl, rfl⟩ := hk.unique hk' hall
      obtain ⟨rfl, hsame⟩ := ih hrest h' hrest'
      exact ⟨rfl, hsame⟩

theorem MarginTo.iff (h : MarginTo t cs rest) (hrest : BeginsCode rest) (ds : List Text) (rest' : Text) :
    MarginTo t ds rest' ∧ BeginsCode rest' ↔ ds = cs ∧ rest' = rest := by
  constructor
  · rintro ⟨h', hrest'⟩
    exact h.unique hrest h' hrest'
  · rintro ⟨rfl, rfl⟩
    exact ⟨h, hrest⟩

end Scan

end PhpClass
