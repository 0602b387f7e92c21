import PhpClass.Proofs.Gap
import PhpClass.Proofs.Statement
import PhpClass.Scan.Bracket

/-!
# Code as tokens

Code is a sequence of tokens: strings, comments and single bytes, each in front of a text in which it ends
where it does (`Stands`, `Lexes`). What follows matters to a token by its first byte only, so tokens in
front of a byte stay what they are whatever follows that byte (`Lexes.stop`), and tokens that are cut off
from what follows stay what they are (`Lexes.alone`).

Matching a bracket runs a stack machine on the tokens (`owe`), and what it matches is a balanced sequence
between two brackets (`bracketed_eq_ok`).
-/

namespace PhpClass

open Text

namespace Scan

/-- A stretch of code that is read as a whole. -/
structure Token where
  kind : Lexeme
  text : Text
  deriving DecidableEq, Repr

/-- The text of tokens one after the other. -/
def code (ks : List Token) : Text := ks.flatMap Token.text

@[simp] theorem code_nil : code [] = [] := rfl

@[simp] theorem code_cons (k : Token) (ks : List Token) : code (k :: ks) = k.text ++ code ks :=
  List.flatMap_cons

@[simp] theorem code_append (js ks : List Token) : code (js ++ ks) = code js ++ code ks :=
  List.flatMap_append

/-! ## Single tokens -/

/-- The token that is read from the front of its text and what follows. -/
inductive Stands : Token → Text → Prop where
  | quoted {q : UInt8} {s rest : Text} (hq : Byte.isQuote q = true) (hs : afterQuote q s = some []) :
      Stands ⟨.quoted, q :: s⟩ rest
  | block {inside rest : Text} (hi : holds (utf8 "*/") inside = false) :
      Stands ⟨.comment, utf8 "/*" ++ inside ++ utf8 "*/"⟩ rest
  | line {inside rest : Text} (hi : Within isInLine inside) (hr : Apart isInLine rest) :
      Stands ⟨.comment, utf8 "//" ++ inside⟩ rest
  | byte {b : UInt8} {rest : Text} (hq : Byte.isQuote b = false)
      (hc : comment? (b :: rest) = .ok none) : Stands ⟨.byte, [b]⟩ rest

theorem lexeme_eq_ok {b : UInt8} {t rest : Text} {l : Lexeme} :
    lexeme b t = .ok (l, rest) ↔ ∃ x, b :: t = x ++ rest ∧ Stands ⟨l, x⟩ rest := by
  constructor
  · intro h
    unfold lexeme at h
    split at h
    · next hq =>
      split at h
      · next r hr =>
        cases h
        obtain ⟨s, rfl, hs, -⟩ := afterQuote_eq_some hr
        exact ⟨b :: s, rfl, .quoted hq hs⟩
      · cases h
    · next hq =>
      split at h
      · cases h
      · next inside r hc =>
        cases h
        rcases comment?_eq_some hc with ⟨he, hi⟩ | ⟨he, hi, hr⟩
        · exact ⟨_, he, .block hi⟩
        · exact ⟨_, he, .line hi hr⟩
      · next hc =>
        cases h
        exact ⟨[b], rfl, .byte (by simpa using hq) hc⟩
  · rintro ⟨x, he, hx⟩
    unfold lexeme
    cases hx with
    | quoted hq hs =>
      obtain ⟨rfl, rfl⟩ := List.cons.inj he
      rw [if_pos hq, List.append_eq, afterQuote_append hs]
      rfl
    | block hi =>
      have hb : b = ascii '/' := by
        rw [blockStart] at he
        exact (List.cons.inj he).1
      rw [if_neg (by rw [hb]; decide), he, comment?_block hi]
    | line hi hr =>
      have hb : b = ascii '/' := by
        rw [lineStart] at he
        exact (List.cons.inj he).1
      rw [if_neg (by rw [hb]; decide), he, comment?_line hi hr]
    | byte hq hc =>
      obtain ⟨rfl, rfl⟩ := List.cons.inj he
      rw [if_neg (by simp [hq]), hc]

theorem lexeme_byte {b : UInt8} {t rest : Text} (h : lexeme b t = .ok (.byte, rest)) :
    t = rest ∧ Stands ⟨.byte, [b]⟩ rest := by
  obtain ⟨x, hx, hs⟩ := lexeme_eq_ok.1 h
  cases hs with
  | byte hq hc =>
    obtain ⟨rfl, rfl⟩ := List.cons.inj hx
    exact ⟨rfl, .byte hq hc⟩

namespace Stands

variable {k : Token} {rest more : Text}

theorem exists_lexeme (h : Stands k rest) :
    ∃ b u, k.text = b :: u ∧ lexeme b (u ++ rest) = .ok (k.kind, rest) := by
  have hne : k.text ≠ [] := by
    cases h with
    | quoted | byte => simp
    | block | line => simp [blockStart, lineStart]
  obtain ⟨b, u, hk⟩ := List.exists_cons_of_ne_nil hne
  exact ⟨b, u, hk, lexeme_eq_ok.2 ⟨k.text, by rw [hk]; rfl, h⟩⟩

theorem text_ne_nil (h : Stands k rest) : k.text ≠ [] := by
  obtain ⟨b, u, hk, -⟩ := h.exists_lexeme
  simp [hk]

/-- At the front of a text stands one token only. -/
theorem unique {j : Token} (hj : Stands j rest) (hk : Stands k more) (h : j.text ++ rest = k.text ++ more) :
    j = k := by
  obtain ⟨b, u, hb, hl⟩ := hj.exists_lexeme
  obtain ⟨c, v, hc, hl'⟩ := hk.exists_lexeme
  obtain ⟨rfl, htail⟩ : b = c ∧ u ++ rest = v ++ more := by simpa [hb, hc] using h
  rw [htail, hl', Except.ok.injEq, Prod.mk.injEq] at hl
  obtain ⟨hkind, rfl⟩ := hl
  have htext := List.append_cancel_right h
  cases j
  cases k
  rw [Token.mk.injEq]
  exact ⟨hkind.symm, htext⟩

theorem eq_byte (h : Stands k rest) (hk : k.kind = .byte) : ∃ b, k = ⟨.byte, [b]⟩ := by
  cases h with
  | byte => exact ⟨_, rfl⟩
  | quoted | block | line => cases hk

/-- Of what follows a token only the first byte matters. -/
theorem congr (h : Stands k rest) (hr : rest.head? = more.head?) : Stands k more := by
  cases h with
  | quoted hq hs => exact .quoted hq hs
  | block hi => exact .block hi
  | line hi hap =>
    refine .line hi ?_
    unfold Apart at hap ⊢
    rwa [← hr]
  | @byte b _ hq hc =>
    refine .byte hq ?_
    rw [comment?_eq_none_iff, blockStart, lineStart] at hc ⊢
    cases rest <;> cases more <;> simp_all [startsWith, after?]

/-- A token ends where nothing follows it. -/
theorem alone (h : Stands k rest) : Stands k [] := by
  cases h with
  | quoted hq hs => exact .quoted hq hs
  | block hi => exact .block hi
  | line hi _ => exact .line hi (apart_nil _)
  | byte hq _ =>
    refine .byte hq ?_
    rw [comment?_eq_none_iff, blockStart, lineStart]
    simp [startsWith, after?]

/-- A byte with which a comment goes on that a slash begins. -/
def isCommentByte (b : UInt8) : Bool := b == ascii '/' || b == ascii '*'

/-- A string or a byte stays what it is in front of anything but the second byte of a comment. -/
theorem extend (h : Stands k []) (hk : k.kind ≠ .comment) (hr : Apart isCommentByte rest) :
    Stands k rest := by
  cases h with
  | quoted hq hs => exact .quoted hq hs
  | block | line => exact absurd rfl hk
  | @byte b _ hq _ =>
    refine .byte hq ?_
    rw [comment?_eq_none_iff, blockStart, lineStart]
    cases rest with
    | nil => simp [startsWith, after?]
    | cons c rest =>
      obtain ⟨h₁, h₂⟩ : c ≠ ascii '/' ∧ c ≠ ascii '*' := by simpa [isCommentByte] using hr
      simp [startsWith, after?, h₁.symm, h₂.symm]

end Stands

/-! ## Sequences of tokens -/

/-- The tokens are read one after the other from their text and what follows. -/
def Lexes : List Token → Text → Prop
  | [], _ => True
  | k :: ks, rest => Stands k (code ks ++ rest) ∧ Lexes ks rest

@[simp] theorem lexes_nil (rest : Text) : Lexes [] rest := trivial

@[simp] theorem lexes_cons {k : Token} {ks : List Token} {rest : Text} :
    Lexes (k :: ks) rest ↔ Stands k (code ks ++ rest) ∧ Lexes ks rest := Iff.rfl

@[simp] theorem lexes_append {js ks : List Token} {rest : Text} :
    Lexes (js ++ ks) rest ↔ Lexes js (code ks ++ rest) ∧ Lexes ks rest := by
  induction js with
  | nil => simp
  | cons j js ih => simp [ih, and_assoc]

/-- A token in front of code. -/
theorem exists_code_of_lexeme {b : UInt8} {t rest : Text} {l : Lexeme} (hl : lexeme b t = .ok (l, rest))
    (h : ∃ ks, rest = code ks ∧ Lexes ks []) : ∃ ks, b :: t = code ks ∧ Lexes ks [] := by
  obtain ⟨ks, rfl, hks⟩ := h
  obtain ⟨x, hx, hstands⟩ := lexeme_eq_ok.1 hl
  exact ⟨⟨l, x⟩ :: ks, hx, by rwa [List.append_nil], hks⟩

theorem Lexes.stop {ks : List Token} {c : UInt8} {rest : Text} (h : Lexes ks (c :: rest))
    (more : Text) : Lexes ks (c :: more) := by
  induction ks with
  | nil => trivial
  | cons k ks ih => exact ⟨h.1.congr (by cases code ks <;> rfl), ih h.2⟩

theorem Lexes.alone {ks : List Token} {rest : Text} (h : Lexes ks rest) : Lexes ks [] := by
  induction ks with
  | nil => trivial
  | cons k ks ih =>
    refine ⟨?_, ih h.2⟩
    cases hc : code ks with
    | nil => exact h.1.alone
    | cons b t => exact h.1.congr (by rw [hc]; rfl)

/-- Of two readings of a text, the one that stops first is the beginning of the other. -/
theorem Lexes.isPrefix {js ks : List Token} {rest more : Text} (hjs : Lexes js rest) (hks : Lexes ks more)
    (h : code js ++ rest = code ks ++ more) (hle : more.length ≤ rest.length) : js <+: ks := by
  induction js generalizing ks with
  | nil => exact List.nil_prefix
  | cons j js ih =>
    cases ks with
    | nil =>
      have hpos := List.length_pos_iff.2 hjs.1.text_ne_nil
      have hlength := congrArg List.length h
      simp only [code_cons, code_nil, List.length_append, List.length_nil] at hlength
      omega
    | cons k ks =>
      rw [code_cons, code_cons, List.append_assoc, List.append_assoc] at h
      obtain rfl := hjs.1.unique hks.1 h
      rw [List.prefix_cons_inj]
      exact ih hjs.2 hks.2 (List.append_cancel_left h)

theorem Lexes.extend {ks : List Token} {rest : Text} (h : Lexes ks [])
    (hk : ∀ k ∈ ks, k.kind ≠ .comment) (hr : Apart Stands.isCommentByte rest) : Lexes ks rest := by
  induction ks with
  | nil => trivial
  | cons k ks ih =>
    refine ⟨?_, ih h.2 fun j hj => hk j (List.mem_cons_of_mem _ hj)⟩
    cases hc : code ks with
    | nil => exact h.1.alone.extend (hk k List.mem_cons_self) hr
    | cons b t => exact h.1.congr (by rw [hc]; rfl)

/-- Single bytes as tokens. -/
def bytes (w : Text) : List Token := w.map fun b => ⟨.byte, [b]⟩

@[simp] theorem code_bytes (w : Text) : code (bytes w) = w := by
  induction w with
  | nil => rfl
  | cons b w ih => simp only [bytes, List.map_cons, code_cons] at ih ⊢; rw [ih]; rfl

theorem plain_ne_slash (b : UInt8) (h : Byte.isPlain b = true) : b ≠ ascii '/' ∧ b ≠ ascii ',' := by
  simp only [Byte.isPlain, Bool.not_eq_true', Bool.or_eq_false_iff, beq_eq_false_iff_ne] at h
  obtain ⟨⟨⟨⟨⟨-, hslash⟩, -⟩, -⟩, hcomma⟩, -⟩ := h
  exact ⟨hslash, hcomma⟩

theorem stands_plain {b : UInt8} (hb : Byte.isPlain b = true) (rest : Text) :
    Stands ⟨.byte, [b]⟩ rest :=
  .byte (plain_spec b hb).1 (comment?_eq_none_of_ne (plain_ne_slash b hb).1 rest)

theorem lexes_bytes {w : Text} (hw : Within Byte.isPlain w) (rest : Text) : Lexes (bytes w) rest := by
  induction w with
  | nil => trivial
  | cons b w ih =>
    rw [within_cons] at hw
    exact ⟨stands_plain hw.1 _, ih hw.2⟩

theorem kind_of_mem_bytes {w : Text} {k : Token} (hk : k ∈ bytes w) : k.kind = .byte := by
  obtain ⟨b, -, rfl⟩ := List.mem_map.1 hk
  rfl

/-! ## Brackets -/

/-- The closers that are owed behind a byte, the innermost first, if the byte may stand there. -/
def oweByte (owed : List UInt8) (b : UInt8) : Option (List UInt8) :=
  match Byte.closer? b with
  | some c => some (c :: owed)
  | none =>
    if Byte.isCloser b then if owed.head? = some b then some owed.tail else none
    else some owed

/-- The closers that are owed behind a token. -/
def owe (owed : List UInt8) (k : Token) : Option (List UInt8) :=
  match k.kind with
  | .byte => k.text.foldlM oweByte owed
  | _ => some owed

theorem owe_byte (owed : List UInt8) (b : UInt8) : owe owed ⟨.byte, [b]⟩ = oweByte owed b := by
  unfold owe
  simp

theorem owe_of_ne {k : Token} (hk : k.kind ≠ .byte) (owed : List UInt8) : owe owed k = some owed := by
  unfold owe
  split
  · next h => exact absurd h hk
  · rfl

/-- Tokens with as many closing brackets as opening ones, each in its place. -/
def Balanced (ks : List Token) : Prop := ks.foldlM owe [] = some []

theorem foldlM_owe_bytes {w : Text} (hw : Within Byte.isPlain w) (owed : List UInt8) :
    (bytes w).foldlM owe owed = some owed := by
  induction w with
  | nil => rfl
  | cons b w ih =>
    rw [within_cons] at hw
    obtain ⟨-, -, ho, hc⟩ := plain_spec b hw.1
    have hno : Byte.closer? b = none := by simpa [Byte.isOpener] using ho
    have hb : owe owed ⟨.byte, [b]⟩ = some owed := by
      rw [owe_byte, oweByte, hno, hc]
      rfl
    unfold bytes at ih ⊢
    rw [List.map_cons, List.foldlM_cons, hb]
    exact ih hw.2

/-- A closing bracket is a byte of its own. -/
theorem closer_spec : ∀ c, Byte.isCloser c = true →
    Byte.isQuote c = false ∧ c ≠ ascii '/' ∧ Byte.closer? c = none ∧ Byte.isBlank c = false :=
  Byte.forall_of_fin (by decide +kernel)

theorem isCloser_of_closer? : ∀ o : UInt8, ∀ c ∈ Byte.closer? o, Byte.isCloser c = true :=
  Byte.forall_of_fin (by decide +kernel)

theorem afterClosers_step {left : Nat} {owed owed' : List UInt8} {k : Token} {rest : Text}
    (hk : Stands k rest) (ho : owe owed k = some owed') (hne : owed' ≠ []) :
    afterClosers left owed (k.text ++ rest) = afterClosers left owed' rest := by
  obtain ⟨b, u, hb, hl⟩ := hk.exists_lexeme
  rw [hb, List.cons_append, afterClosers]
  split
  · next he => rw [hl] at he; cases he
  · next he =>
    rw [hl, Except.ok.injEq, Prod.mk.injEq] at he
    obtain ⟨hkind, rfl⟩ := he
    obtain ⟨b', rfl⟩ := hk.eq_byte hkind
    cases hb
    rw [owe_byte, oweByte] at ho
    split
    · next c hc => rw [hc] at ho; cases ho; rfl
    · next hc =>
      rw [hc] at ho
      dsimp only at ho
      split at ho
      · next hcl =>
        rw [if_pos hcl]
        split at ho
        · next hh =>
          cases ho
          rw [if_pos hh, if_neg hne]
        · cases ho
      · next hcl => rw [if_neg hcl]; cases ho; rfl
  · next hnot he =>
    rw [hl, Except.ok.injEq, Prod.mk.injEq] at he
    obtain ⟨rfl, rfl⟩ := he
    rw [owe_of_ne hnot] at ho
    cases ho
    rfl

theorem oweByte_append {owed owed' : List UInt8} {b : UInt8} (h : oweByte owed b = some owed')
    (more : List UInt8) : oweByte (owed ++ more) b = some (owed' ++ more) := by
  unfold oweByte at h ⊢
  split at h
  · cases h; rfl
  · split at h
    · next hc =>
      rw [if_pos hc]
      cases owed with
      | nil => simp at h
      | cons x owed => simpa using h
    · next hc =>
      rw [if_neg hc]
      cases h
      rfl

/-- What is owed further out does not matter to a token. -/
theorem owe_append {owed owed' : List UInt8} {k : Token} {rest : Text} (hk : Stands k rest)
    (h : owe owed k = some owed') (more : List UInt8) :
    owe (owed ++ more) k = some (owed' ++ more) := by
  by_cases hb : k.kind = .byte
  · obtain ⟨b, rfl⟩ := hk.eq_byte hb
    rw [owe_byte] at h ⊢
    exact oweByte_append h more
  · rw [owe_of_ne hb] at h ⊢
    cases h
    rfl

/-- What a search for the closers owed meets at its end, and its result. -/
inductive Stops (left : Nat) : List UInt8 → Text → Scan Text → Prop
  | partner {c : UInt8} {rest : Text} (hc : Byte.isCloser c = true) : Stops left [c] (c :: rest) (.ok rest)
  | mismatch {owed : List UInt8} {b : UInt8} {rest : Text} (hb : Byte.isCloser b = true)
      (hne : owed.head? ≠ some b) : Stops left owed (b :: rest) (.error ⟨.unexpected b, rest.length + 1⟩)
  | ended {owed : List UInt8} : Stops left owed [] (.error ⟨.unclosedBlock, left⟩)
  | unclosed {owed : List UInt8} {b : UInt8} {rest : Text} {e : Fault ScanCause} (he : lexeme b rest = .error e) :
      Stops left owed (b :: rest) (.error e)

theorem lexeme_closer {c : UInt8} (hc : Byte.isCloser c = true) (rest : Text) :
    lexeme c rest = .ok (.byte, rest) := by
  obtain ⟨hq, hs, -, -⟩ := closer_spec c hc
  exact lexeme_eq_ok.2 ⟨[c], rfl, .byte hq (comment?_eq_none_of_ne hs rest)⟩

theorem Stops.afterClosers_eq {left : Nat} {owed : List UInt8} {t : Text} {r : Scan Text}
    (h : Stops left owed t r) : afterClosers left owed t = r := by
  -- what the search does in front of a closing bracket
  have atCloser : ∀ {b : UInt8}, Byte.isCloser b = true → ∀ owed rest, afterClosers left owed (b :: rest) =
      if owed.head? = some b then if owed.tail = [] then .ok rest else afterClosers left owed.tail rest
      else .error ⟨.unexpected b, rest.length + 1⟩ := by
    intro b hb owed rest
    obtain ⟨-, -, hno, -⟩ := closer_spec b hb
    have hl := lexeme_closer hb rest
    rw [afterClosers]
    split
    · next he => rw [hl] at he; cases he
    · next he =>
      rw [hl] at he
      cases he
      rw [hno]
      exact if_pos hb
    · next hnot he =>
      rw [hl, Except.ok.injEq, Prod.mk.injEq] at he
      exact absurd he.1.symm hnot
  cases h with
  | partner hc => rw [atCloser hc, List.head?_cons, if_pos rfl, List.tail_cons, if_pos rfl]
  | mismatch hb hne => rw [atCloser hb, if_neg hne]
  | ended => rw [afterClosers]
  | unclosed he =>
    rw [afterClosers]
    split
    · next he' => rw [he] at he'; cases he'; rfl
    · next he' => rw [he] at he'; cases he'
    · next he' => rw [he] at he'; cases he'

theorem Stops.eq_of_ok {left : Nat} {owed : List UInt8} {c : UInt8} {t rest : Text}
    (h : Stops left (owed ++ [c]) t (.ok rest)) : owed = [] ∧ t = c :: rest := by
  generalize hall : owed ++ [c] = all at h
  cases h with
  | partner =>
    cases owed with
    | nil => cases hall; exact ⟨rfl, rfl⟩
    | cons x owed => simp at hall

/-- A search for the closers owed and for `c` below them goes on behind tokens that leave others owed. -/
theorem afterClosers_lexes (left : Nat) {owed owed' : List UInt8} {ks : List Token} {rest : Text}
    (hks : Lexes ks rest) (hf : ks.foldlM owe owed = some owed') (c : UInt8) :
    afterClosers left (owed ++ [c]) (code ks ++ rest) = afterClosers left (owed' ++ [c]) rest := by
  induction ks generalizing owed with
  | nil => cases hf; rfl
  | cons k ks ih =>
    rw [List.foldlM_cons] at hf
    obtain ⟨o, ho, hf⟩ := Option.bind_eq_some_iff.1 hf
    rw [code_cons, List.append_assoc, afterClosers_step hks.1 (owe_append hks.1 ho [c]) (by simp)]
    exact ih hks.2 hf

/-- Such a search passes over tokens and comes to its end behind them. -/
theorem exists_stops (left : Nat) (owed : List UInt8) (c : UInt8) (t : Text) :
    ∃ ks owed' rest r, t = code ks ++ rest ∧ Lexes ks rest ∧ ks.foldlM owe owed = some owed' ∧
      Stops left (owed' ++ [c]) rest r := by
  -- One more token in front of those that the rest of the search passes over.
  have cons : ∀ {k : Token} {t : Text} {owed o : List UInt8}, Stands k t → owe owed k = some o →
      (∃ ks owed' rest r, t = code ks ++ rest ∧ Lexes ks rest ∧ ks.foldlM owe o = some owed' ∧
        Stops left (owed' ++ [c]) rest r) →
      ∃ ks owed' rest r, k.text ++ t = code ks ++ rest ∧ Lexes ks rest ∧ ks.foldlM owe owed = some owed' ∧
        Stops left (owed' ++ [c]) rest r := by
    rintro k t owed o hk ho ⟨ks, owed', rest, r, rfl, hks, hf, hr⟩
    refine ⟨k :: ks, owed', rest, r, by simp, ⟨hk, hks⟩, ?_, hr⟩
    rw [List.foldlM_cons, ho]
    exact hf
  generalize hall : owed ++ [c] = all
  fun_induction afterClosers left all t generalizing owed with
  | case1 => exact ⟨[], owed, [], _, rfl, trivial, rfl, .ended⟩
  | case2 all b t e he => exact ⟨[], owed, b :: t, _, rfl, trivial, rfl, .unclosed he⟩
  | case3 all b t r hl c' hc' ih =>
    obtain ⟨rfl, hk⟩ := lexeme_byte hl
    refine cons hk ?_ (ih (c' :: owed) (by rw [List.cons_append, hall]))
    rw [owe_byte, oweByte, hc']
  | case4 all b t r hl hno hb hh ht =>
    obtain ⟨rfl, -⟩ := lexeme_byte hl
    subst hall
    cases owed with
    | nil =>
      cases hh
      exact ⟨[], [], c :: t, _, rfl, trivial, rfl, .partner hb⟩
    | cons x owed => simp at ht
  | case5 all b t r hl hno hb hh ht ih =>
    obtain ⟨rfl, hk⟩ := lexeme_byte hl
    subst hall
    cases owed with
    | nil => simp at ht
    | cons x owed =>
      cases hh
      refine cons hk ?_ (ih owed rfl)
      rw [owe_byte, oweByte, hno]
      simp [hb]
  | case6 all b t r hl hno hb hh =>
    subst hall
    exact ⟨[], owed, b :: t, _, rfl, trivial, rfl, .mismatch hb hh⟩
  | case7 all b t r hl hno hb ih =>
    obtain ⟨rfl, hk⟩ := lexeme_byte hl
    refine cons hk ?_ (ih owed hall)
    rw [owe_byte, oweByte, hno, if_neg hb]
  | case8 all b t l r hnot hl ih =>
    obtain ⟨x, hx, hk⟩ := lexeme_eq_ok.1 hl
    rw [hx]
    exact cons hk (owe_of_ne hnot owed) (ih owed hall)

/-- A bracketed text is a balanced sequence of tokens between a bracket and its partner. -/
theorem bracketed_eq_ok {t block rest : Text} : bracketed t = .ok (block, rest) ↔
    ∃ o c ks, Byte.closer? o = some c ∧ block = o :: (code ks ++ [c]) ∧ t = block ++ rest ∧
      Lexes ks (c :: rest) ∧ Balanced ks := by
  constructor
  · intro h
    obtain ⟨r, hr, he⟩ := bind_eq_ok.1 h
    cases he
    unfold afterBracket at hr
    split at hr
    · cases hr
    · next o t =>
      split at hr
      · next c hc =>
        obtain ⟨ks, owed, r, res, rfl, hks, hf, hstop⟩ := exists_stops (t.length + 1) [] c t
        have hres := afterClosers_lexes ((code ks ++ r).length + 1) hks hf c
        rw [List.nil_append, hr, hstop.afterClosers_eq] at hres
        obtain ⟨rfl, rfl⟩ := Stops.eq_of_ok (hres ▸ hstop)
        have ht : o :: (code ks ++ c :: rest) = o :: (code ks ++ [c]) ++ rest := by simp
        rw [ht, upTo_append]
        exact ⟨o, c, ks, hc, rfl, rfl, hks, hf⟩
      · cases hr
  · rintro ⟨o, c, ks, hc, rfl, rfl, hks, hf⟩
    refine bind_eq_ok.2 ⟨rest, ?_, by rw [upTo_append]; rfl⟩
    have hstop : Stops ((code ks ++ c :: rest).length + 1) [c] (c :: rest) (.ok rest) :=
      .partner (isCloser_of_closer? o c hc)
    have hclose := afterClosers_lexes ((code ks ++ c :: rest).length + 1) hks hf c
    rw [List.nil_append, hstop.afterClosers_eq] at hclose
    rw [List.cons_append, List.append_assoc, afterBracket, hc]
    exact hclose

/-- A bracketed text is read from in front of whatever follows it. -/
theorem bracketed_append {t block rest : Text} (h : bracketed t = .ok (block, rest)) (more : Text) :
    bracketed (block ++ more) = .ok (block, more) := by
  obtain ⟨o, c, ks, hc, rfl, -, hks, hf⟩ := bracketed_eq_ok.1 h
  exact bracketed_eq_ok.2 ⟨o, c, ks, hc, rfl, rfl, hks.stop more, hf⟩

end Scan

end PhpClass
