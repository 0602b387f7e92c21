import PhpClass.Proofs.Token
import PhpClass.Scan.Split

/-!
# Parts of a list

Splitting a list at its commas, on tokens (`split_code`). The parts of a balanced list are balanced and
hold no comma of the list (`isPart_of_balanced`), and such parts may be put together and be cut off plain
bytes (`IsPart`).
-/

namespace PhpClass

open Text

namespace Scan

/-! ## Parts -/

/-- The comma between two parts. -/
def comma : Token := ⟨.byte, [ascii ',']⟩

theorem stands_comma (rest : Text) : Stands comma rest := .byte (by decide) (comment?_eq_none_of_ne (by decide) rest)

/-- The number of open brackets behind a token. -/
def Token.nest (k : Token) (depth : Nat) : Nat :=
  match k.kind with
  | .byte => k.text.foldl Scan.nest depth
  | _ => depth

/-- The parts of a list, with `depth` brackets open. -/
def parts (depth : Nat) : List Token → List (List Token)
  | [] => [[]]
  | k :: ks =>
    if depth = 0 ∧ k = comma then [] :: parts 0 ks
    else (parts (k.nest depth) ks).modifyHead (k :: ·)

theorem parts_ne_nil (depth : Nat) (ks : List Token) : parts depth ks ≠ [] := by
  induction ks generalizing depth with
  | nil => simp [parts]
  | cons k ks ih =>
    rw [parts]
    split
    · simp
    · simpa using ih _

theorem extendFirst_eq {read : Text} {texts : List Text} (h : texts ≠ []) :
    extendFirst read texts = texts.modifyHead (read ++ ·) := by
  cases texts with
  | nil => exact absurd rfl h
  | cons t ts => rfl

theorem map_code_modifyHead {k : Token} {ps : List (List Token)} :
    (ps.modifyHead (k :: ·)).map code = (ps.map code).modifyHead (k.text ++ ·) := by
  cases ps <;> rfl

theorem nest_byte (b : UInt8) (depth : Nat) : (⟨.byte, [b]⟩ : Token).nest depth = nest depth b := rfl

theorem nest_of_ne {k : Token} (hk : k.kind ≠ .byte) (depth : Nat) : k.nest depth = depth := by
  unfold Token.nest
  split
  · next h => exact absurd h hk
  · rfl

/-- Splitting up to the end of tokens reads their parts, whatever follows. -/
theorem splitFirst_code {ks : List Token} {rest : Text} (h : Lexes ks rest) (depth : Nat) :
    splitFirst (code ks).length depth (code ks ++ rest) = .ok ((parts depth ks).map code) := by
  induction ks generalizing depth with
  | nil => rw [splitFirst.eq_def]; rfl
  | cons k ks ih =>
    obtain ⟨b, u, hb, hl⟩ := h.1.exists_lexeme
    have hcode : code (k :: ks) ++ rest = b :: (u ++ (code ks ++ rest)) := by
      rw [code_cons, hb, List.append_assoc]
      rfl
    have hlength : (code (k :: ks)).length = (u ++ code ks).length + 1 := by rw [code_cons, hb]; rfl
    have hne : (parts (k.nest depth) ks).map code ≠ [] := by simpa using parts_ne_nil _ ks
    rw [hcode, hlength, splitFirst]
    split
    · next he => rw [hl] at he; cases he
    · next he =>
      rw [hl, Except.ok.injEq, Prod.mk.injEq] at he
      obtain ⟨hkind, rfl⟩ := he
      obtain ⟨b', rfl⟩ := h.1.eq_byte hkind
      cases hb
      rw [parts, List.nil_append]
      split
      · next hd =>
        obtain ⟨rfl, rfl⟩ : depth = 0 ∧ b = ascii ',' := by simpa using hd
        rw [if_pos ⟨rfl, rfl⟩, ih h.2]
        rfl
      · next hd =>
        rw [if_neg (by simpa [comma] using hd), ih h.2, map_code_modifyHead]
        exact congrArg Except.ok (extendFirst_eq hne)
    · next hnot he =>
      rw [hl, Except.ok.injEq, Prod.mk.injEq] at he
      obtain ⟨rfl, rfl⟩ := he
      have hread : upTo (b :: (u ++ (code ks ++ rest))) (code ks ++ rest) = k.text := by
        rw [← List.cons_append, ← hb, upTo_append]
      have hlen : (u ++ code ks).length + 1 - k.text.length = (code ks).length := by
        rw [hb]
        simp
      have htake : k.text.take ((u ++ code ks).length + 1) = k.text := by
        rw [hb]
        exact List.take_of_length_le (by simp)
      have hcomma : ¬(depth = 0 ∧ k = comma) := fun hd => hnot (hd.2 ▸ rfl)
      rw [nest_of_ne hnot] at hne
      dsimp only
      rw [hread, hlen, htake, ih h.2, parts, if_neg hcomma, nest_of_ne hnot, map_code_modifyHead]
      exact congrArg Except.ok (extendFirst_eq hne)

theorem split_code {ks : List Token} (h : Lexes ks []) :
    split (code ks) = .ok ((parts 0 ks).map code) := by
  have hsplit := splitFirst_code h 0
  rwa [List.append_nil] at hsplit

/-! ## Parts of a balanced list -/

/-- Brackets are counted as they are owed. -/
theorem nest_of_owe {k : Token} {rest : Text} {owed owed' : List UInt8} (hk : Stands k rest)
    (h : owe owed k = some owed') : k.nest owed.length = owed'.length := by
  by_cases hb : k.kind = .byte
  · obtain ⟨b, rfl⟩ := hk.eq_byte hb
    rw [owe_byte, oweByte] at h
    rw [nest_byte, nest, Byte.isOpener]
    split at h
    · next c hc => cases h; simp [hc]
    · next hc =>
      rw [hc]
      split at h
      · next hcl =>
        split at h
        · cases h; simp [hcl]
        · cases h
      · next hcl => cases h; simp [hcl]
  · rw [owe_of_ne hb] at h
    cases h
    exact nest_of_ne hb _

theorem foldl_nest_of_owe {ks : List Token} {rest : Text} {owed owed' : List UInt8} (h : Lexes ks rest)
    (hb : ks.foldlM owe owed = some owed') :
    ks.foldl (fun depth k => k.nest depth) owed.length = owed'.length := by
  induction ks generalizing owed with
  | nil => cases hb; rfl
  | cons k ks ih =>
    rw [List.foldlM_cons] at hb
    obtain ⟨o, ho, hb⟩ := Option.bind_eq_some_iff.1 hb
    rw [List.foldl_cons, nest_of_owe h.1 ho]
    exact ih h.2 hb

/-- Balanced code that is one part of a list. -/
structure IsPart (ks : List Token) : Prop where
  balanced : Balanced ks
  whole : parts 0 ks = [ks]

/-- A part is a single part of its own, the first one with the brackets that are open in front of the list. -/
theorem parts_of_mem_parts {ks p : List Token} {ps : List (List Token)} {depth : Nat}
    (h : parts depth ks = p :: ps) : parts depth p = [p] ∧ ∀ q ∈ ps, parts 0 q = [q] := by
  induction ks generalizing depth p ps with
  | nil => cases h; exact ⟨rfl, List.forall_mem_nil _⟩
  | cons k ks ih =>
    rw [parts] at h
    split at h
    · cases h
      obtain ⟨q, qs, hq⟩ := List.exists_cons_of_ne_nil (parts_ne_nil 0 ks)
      rw [hq, List.forall_mem_cons]
      exact ⟨rfl, ih hq⟩
    · next hd =>
      obtain ⟨q, qs, hq⟩ := List.exists_cons_of_ne_nil (parts_ne_nil (k.nest depth) ks)
      rw [hq] at h
      cases h
      obtain ⟨hfirst, hmore⟩ := ih hq
      refine ⟨?_, hmore⟩
      rw [parts, if_neg hd, hfirst]
      rfl

/-- In a list with closers still owed, the first part pays them and the others are balanced. -/
theorem balanced_of_mem_parts {ks p : List Token} {ps : List (List Token)} {owed : List UInt8}
    {rest : Text} (h : Lexes ks rest) (hb : ks.foldlM owe owed = some [])
    (hp : parts owed.length ks = p :: ps) : p.foldlM owe owed = some [] ∧ ∀ q ∈ ps, Balanced q := by
  induction ks generalizing owed p ps with
  | nil =>
    cases hp
    exact ⟨hb, List.forall_mem_nil _⟩
  | cons k ks ih =>
    rw [List.foldlM_cons] at hb
    obtain ⟨owed', ho, hb⟩ := Option.bind_eq_some_iff.1 hb
    rw [parts] at hp
    split at hp
    · next hd =>
      obtain ⟨hz, rfl⟩ := hd
      obtain rfl := List.length_eq_zero_iff.1 hz
      cases hp
      cases ho
      obtain ⟨q, qs, hq⟩ := List.exists_cons_of_ne_nil (parts_ne_nil 0 ks)
      rw [hq, List.forall_mem_cons]
      exact ⟨rfl, ih h.2 hb hq⟩
    · rw [nest_of_owe h.1 ho] at hp
      obtain ⟨q, qs, hq⟩ := List.exists_cons_of_ne_nil (parts_ne_nil owed'.length ks)
      rw [hq] at hp
      cases hp
      obtain ⟨hfirst, hmore⟩ := ih h.2 hb hq
      refine ⟨?_, hmore⟩
      rw [List.foldlM_cons, ho]
      exact hfirst

theorem isPart_of_balanced {ks p : List Token} {rest : Text} (h : Lexes ks rest) (hb : Balanced ks)
    (hp : p ∈ parts 0 ks) : IsPart p := by
  obtain ⟨q, qs, hq⟩ := List.exists_cons_of_ne_nil (parts_ne_nil 0 ks)
  have hb : ks.foldlM owe [] = some [] := hb
  obtain ⟨hbal, hbals⟩ := balanced_of_mem_parts h hb hq
  obtain ⟨hwhole, hwholes⟩ := parts_of_mem_parts hq
  rw [hq] at hp
  rcases List.mem_cons.1 hp with rfl | hp
  · exact ⟨hbal, hwhole⟩
  · exact ⟨hbals p hp, hwholes p hp⟩

/-- Parts are stretches of the list, the first one from its front. -/
theorem parts_infix {ks p : List Token} {ps : List (List Token)} {depth : Nat}
    (h : parts depth ks = p :: ps) : p <+: ks ∧ ∀ q ∈ ps, q <:+: ks := by
  induction ks generalizing depth p ps with
  | nil => cases h; simp
  | cons k ks ih =>
    rw [parts] at h
    split at h
    · cases h
      obtain ⟨q, qs, hq⟩ := List.exists_cons_of_ne_nil (parts_ne_nil 0 ks)
      obtain ⟨h₁, h₂⟩ := ih hq
      refine ⟨List.nil_prefix, fun r hr => ?_⟩
      rw [hq] at hr
      rcases List.mem_cons.1 hr with rfl | hr
      · exact h₁.isInfix.trans (List.suffix_cons k ks).isInfix
      · exact (h₂ r hr).trans (List.suffix_cons k ks).isInfix
    · obtain ⟨q, qs, hq⟩ := List.exists_cons_of_ne_nil (parts_ne_nil (k.nest depth) ks)
      rw [hq] at h
      cases h
      obtain ⟨h₁, h₂⟩ := ih hq
      exact ⟨List.prefix_cons_inj k |>.2 h₁, fun r hr => (h₂ r hr).trans (List.suffix_cons k ks).isInfix⟩

theorem lexes_of_mem_parts {ks p : List Token} {rest : Text} {depth : Nat} (h : Lexes ks rest)
    (hp : p ∈ parts depth ks) : Lexes p [] := by
  have hin : p <:+: ks := by
    obtain ⟨q, qs, hq⟩ := List.exists_cons_of_ne_nil (parts_ne_nil depth ks)
    obtain ⟨h₁, h₂⟩ := parts_infix hq
    rw [hq] at hp
    rcases List.mem_cons.1 hp with rfl | hp
    · exact h₁.isInfix
    · exact h₂ p hp
  obtain ⟨a, b, rfl⟩ := hin
  rw [List.append_assoc, lexes_append, lexes_append] at h
  exact h.2.1.alone

/-- What stands in front of a stretch without a comma belongs to the first part. -/
theorem parts_append {ks : List Token} {depth : Nat} (hw : parts depth ks = [ks]) (ms : List Token) :
    parts depth (ks ++ ms) = (parts (ks.foldl (fun depth k => k.nest depth) depth) ms).modifyHead (ks ++ ·) := by
  induction ks generalizing depth with
  | nil => cases hp : parts depth ms <;> simp [hp]
  | cons k ks ih =>
    rw [parts] at hw
    split at hw
    · simp at hw
    · next hd =>
      obtain ⟨q, qs, hq⟩ := List.exists_cons_of_ne_nil (parts_ne_nil (k.nest depth) ks)
      rw [hq] at hw
      cases hw
      rw [List.cons_append, parts, if_neg hd, ih hq, List.foldl_cons]
      cases parts (ks.foldl (fun depth k => k.nest depth) (k.nest depth)) ms <;> rfl

/-- A single part is the whole list. -/
theorem eq_of_parts_eq_singleton {ks p : List Token} {depth : Nat} (h : parts depth ks = [p]) :
    p = ks := by
  induction ks generalizing depth p with
  | nil => cases h; rfl
  | cons k ks ih =>
    rw [parts] at h
    split at h
    · exact absurd (List.cons.inj h).2 (parts_ne_nil 0 ks)
    · obtain ⟨q, qs, hq⟩ := List.exists_cons_of_ne_nil (parts_ne_nil (k.nest depth) ks)
      rw [hq] at h
      cases h
      rw [ih hq]

theorem whole_of_append {ks ms : List Token} {depth : Nat} (h : parts depth (ks ++ ms) = [ks ++ ms]) :
    parts depth ks = [ks] := by
  induction ks generalizing depth with
  | nil => rfl
  | cons k ks ih =>
    rw [List.cons_append, parts] at h
    split at h
    · simp at h
    · next hd =>
      obtain ⟨q, qs, hq⟩ := List.exists_cons_of_ne_nil (parts_ne_nil (k.nest depth) (ks ++ ms))
      rw [hq] at h
      cases h
      rw [parts, if_neg hd, ih hq]
      rfl

namespace IsPart

variable {ks ms : List Token} {rest : Text}

theorem append (hk : IsPart ks) (hlex : Lexes ks rest) (hm : IsPart ms) : IsPart (ks ++ ms) where
  balanced := by
    unfold Balanced
    rw [List.foldlM_append, hk.balanced]
    exact hm.balanced
  whole := by
    have hdepth : ks.foldl (fun depth k => k.nest depth) 0 = 0 := foldl_nest_of_owe hlex hk.balanced
    rw [parts_append hk.whole ms, hdepth, hm.whole]
    rfl

theorem bytes {w : Text} (hw : Within Byte.isPlain w) : IsPart (bytes w) where
  balanced := foldlM_owe_bytes hw []
  whole := by
    induction w with
    | nil => rfl
    | cons b w ih =>
      rw [within_cons] at hw
      have hcomma : (⟨.byte, [b]⟩ : Token) ≠ comma := by
        have := (plain_ne_slash b hw.1).2
        simpa [comma] using this
      have ih := ih hw.2
      unfold Scan.bytes at ih ⊢
      rw [List.map_cons, parts, if_neg fun hd => hcomma hd.2, nest_byte, nest_plain hw.1, ih]
      rfl

theorem of_bytes_append {w : Text} (hw : Within Byte.isPlain w) (h : IsPart (Scan.bytes w ++ ms)) :
    IsPart ms where
  balanced := by
    have := h.balanced
    unfold Balanced at this
    rwa [List.foldlM_append, foldlM_owe_bytes hw] at this
  whole := by
    have hdepth : (Scan.bytes w).foldl (fun depth k => k.nest depth) 0 = 0 :=
      foldl_nest_of_owe (lexes_bytes hw []) (foldlM_owe_bytes hw [])
    have hwhole := h.whole
    rw [parts_append (bytes hw).whole ms, hdepth] at hwhole
    cases hp : parts 0 ms with
    | nil => exact absurd hp (parts_ne_nil 0 ms)
    | cons p ps =>
      rw [hp, List.modifyHead_cons] at hwhole
      obtain ⟨he, rfl⟩ := List.cons.inj hwhole
      rw [List.append_cancel_left he]

theorem of_append_bytes {w : Text} (hw : Within Byte.isPlain w) (h : IsPart (ks ++ Scan.bytes w)) :
    IsPart ks where
  balanced := by
    have hb := h.balanced
    unfold Balanced at hb ⊢
    rw [List.foldlM_append] at hb
    obtain ⟨owed, ho, hb⟩ := Option.bind_eq_some_iff.1 hb
    rw [foldlM_owe_bytes hw] at hb
    rw [ho]
    exact hb
  whole := whole_of_append h.whole

end IsPart

end Scan

end PhpClass
