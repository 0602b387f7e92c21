import Mathlib.Data.List.Sort
import PhpClass.Command.Diff

/-!
# Which lines a difference shows

The lines in which two texts differ fall into stretches of three lines, each of which begins with such a line behind
the stretch before (`Starts`). A hunk shows a stretch and the two lines in front of it. These lines can belong to the
stretch before, and then they are shown twice, whether the texts differ in them or not (`count_shown`). So every line
in which the texts differ is shown, once or twice, and no line is shown twice exactly if there are always two lines
between two stretches.
-/

namespace PhpClass

open Text

namespace Diff

/-- The texts differ in the line with this number. -/
def Changed (old new : List Text) (j : Nat) : Prop := old[j]? ≠ new[j]?

instance (old new : List Text) (j : Nat) : Decidable (Changed old new j) := inferInstanceAs (Decidable (¬_))

/-- What is written of a line: it once if the texts do not differ in it, and else the line of each text. -/
def written (old new : List Text) (j : Nat) : List Text :=
  if Changed old new j then (old[j]?.map (utf8 "-" ++ ·)).toList ++ (new[j]?.map (utf8 "+" ++ ·)).toList
  else (old[j]?.map (utf8 " " ++ ·)).toList

/-- The numbers of the lines of a hunk. -/
def Hunk.numbers (h : Hunk) : List Nat := List.range' h.start (h.stop - h.start)

/-- The numbers of all lines that are shown, one hunk after the other. -/
def shown (old new : List Text) : List Nat := (hunks (rows old new)).flatMap Hunk.numbers

/-- The hunk of the stretch that begins in a line, in texts with so many lines. -/
def Hunk.around (total first : Nat) : Hunk := ⟨first - 2, min (first + 3) total⟩

/-- The first lines of the stretches of three lines in which two texts differ, from a line on. -/
structure Starts (old new : List Text) (i : Nat) (fs : List Nat) : Prop where
  changed : ∀ f ∈ fs, i ≤ f ∧ Changed old new f
  apart : fs.Pairwise fun f g => f + 3 ≤ g
  complete : ∀ j, i ≤ j → Changed old new j → ∃ f ∈ fs, f ≤ j ∧ j < f + 3

/-! ## Lines side by side -/

variable {old new : List Text} {fs : List Nat} {j : Nat}

theorem length_rows (old new : List Text) : (rows old new).length = max old.length new.length := by
  fun_induction rows old new with
  | case1 => rfl
  | case2 o os ih | case3 n ns ih => simpa using ih
  | case4 o os n ns ih =>
    rw [List.length_cons, ih, List.length_cons, List.length_cons]
    omega

theorem getElem?_rows (old new : List Text) (j : Nat) : (rows old new)[j]? =
    if j < max old.length new.length then some ⟨old[j]?, new[j]?⟩ else none := by
  fun_induction rows old new generalizing j with
  | case1 => simp
  | case2 o os ih | case3 n ns ih => cases j <;> simp_all
  | case4 o os n ns ih => cases j <;> simp_all

theorem Changed.lt (h : Changed old new j) : j < max old.length new.length := by
  by_contra hle
  apply h
  rw [List.getElem?_eq_none (by omega), List.getElem?_eq_none (by omega)]

theorem same_iff {r : Row} (h : (rows old new)[j]? = some r) : r.same = true ↔ ¬Changed old new j := by
  rw [getElem?_rows] at h
  split at h
  · cases h
    simp [Row.same, Changed]
  · cases h

theorem lines_of_getElem? {r : Row} (h : (rows old new)[j]? = some r) : r.lines = written old new j := by
  have hsame := same_iff h
  rw [getElem?_rows] at h
  split at h
  · cases h
    unfold Row.lines written
    by_cases hc : Changed old new j
    · rw [if_neg (by simp [hsame, hc]), if_pos hc]
    · rw [if_pos (hsame.2 hc), if_neg hc]
  · cases h

/-! ## Stretches -/

theorem Starts.skip {i : Nat} (h : Starts old new (i + 1) fs) (hi : ¬Changed old new i) : Starts old new i fs where
  changed := by
    intro f hf
    obtain ⟨hle, hc⟩ := h.changed f hf
    exact ⟨by omega, hc⟩
  apart := h.apart
  complete := by
    intro j hj hc
    have hne : i ≠ j := by
      rintro rfl
      exact hi hc
    exact h.complete j (by omega) hc

/-- A stretch that begins here, and the stretches behind it. -/
theorem Starts.cons {i : Nat} (h : Starts old new (min (i + 3) (max old.length new.length)) fs)
    (hi : Changed old new i) : Starts old new i (i :: fs) := by
  have hlt := hi.lt
  have hbehind : ∀ f ∈ fs, i + 3 ≤ f ∧ Changed old new f := by
    intro f hf
    obtain ⟨hle, hc⟩ := h.changed f hf
    have hf := hc.lt
    exact ⟨by omega, hc⟩
  refine ⟨?_, List.pairwise_cons.2 ⟨fun f hf => (hbehind f hf).1, h.apart⟩, ?_⟩
  · intro f hf
    rcases List.mem_cons.1 hf with rfl | hf
    · exact ⟨Nat.le_refl f, hi⟩
    · obtain ⟨hle, hc⟩ := hbehind f hf
      exact ⟨by omega, hc⟩
  · intro j hj hc
    by_cases hnear : j < i + 3
    · exact ⟨i, List.mem_cons_self, hj, hnear⟩
    · obtain ⟨f, hf, hin⟩ := h.complete j (by omega) hc
      exact ⟨f, List.mem_cons_of_mem _ hf, hin⟩

theorem exists_starts (old new : List Text) (i : Nat) : ∃ fs, Starts old new i fs ∧
    hunksFrom (rows old new).toArray i = fs.map (Hunk.around (max old.length new.length)) := by
  have hsize : (rows old new).toArray.size = max old.length new.length := length_rows old new
  generalize hall : (rows old new).toArray = all at hsize
  fun_induction hunksFrom all i with
  | case1 i hi hsame ih =>
    obtain ⟨fs, hfs, hhunks⟩ := ih
    subst hall
    exact ⟨fs, hfs.skip ((same_iff (List.getElem?_eq_getElem hi)).1 hsame), hhunks⟩
  | case2 i hi hsame ih =>
    obtain ⟨fs, hfs, hhunks⟩ := ih
    subst hall
    have hchanged : Changed old new i := by
      by_contra hno
      exact hsame ((same_iff (List.getElem?_eq_getElem hi)).2 hno)
    rw [hsize] at hfs hhunks ⊢
    exact ⟨i :: fs, hfs.cons hchanged, by rw [hhunks]; rfl⟩
  | case3 i hi =>
    refine ⟨[], ⟨by simp, .nil, ?_⟩, rfl⟩
    intro j hj hc
    have hlt := hc.lt
    omega

theorem far_of_pairwise {d f g : Nat} (h : fs.Pairwise fun f g => f + d ≤ g) (hf : f ∈ fs) (hg : g ∈ fs)
    (hlt : f < g) : f + d ≤ g := by
  obtain ⟨m, hm, rfl⟩ := List.mem_iff_getElem.1 hf
  obtain ⟨n, hn, rfl⟩ := List.mem_iff_getElem.1 hg
  have hpair := List.pairwise_iff_getElem.1 h
  rcases Nat.lt_trichotomy m n with hmn | rfl | hmn
  · exact hpair m n hm hn hmn
  · omega
  · have hback := hpair n m hn hm hmn
    omega

/-- There is one way to begin stretches. -/
theorem Starts.unique {i : Nat} {gs : List Nat} (hfs : Starts old new i fs) (hgs : Starts old new i gs) : fs = gs := by
  -- The first line that begins a stretch in one way only would lie in an earlier stretch.
  have step : ∀ {fs gs : List Nat}, Starts old new i fs → Starts old new i gs → ∀ f,
      (∀ g < f, g ∈ gs → g ∈ fs) → f ∈ fs → f ∈ gs := by
    intro fs gs hfs hgs f hless hf
    obtain ⟨hi, hc⟩ := hfs.changed f hf
    obtain ⟨g, hg, hle, hlt⟩ := hgs.complete f hi hc
    rcases Nat.lt_or_eq_of_le hle with hgf | rfl
    · have hfar := far_of_pairwise hfs.apart (hless g hgf hg) hf hgf
      omega
    · exact hg
  have hmem : ∀ f, f ∈ fs ↔ f ∈ gs := by
    intro f
    induction f using Nat.strongRecOn with
    | ind f ih =>
      constructor
      · exact step hfs hgs f fun g hg => (ih g hg).2
      · exact step hgs hfs f fun g hg => (ih g hg).1
  have hincreases : ∀ {fs : List Nat}, Starts old new i fs → fs.Pairwise (· < ·) := fun h =>
    h.apart.imp fun hfar => by omega
  exact (hincreases hfs).eq_of_mem_iff (hincreases hgs) hmem

/-! ## Lines that are shown -/

/-- A stretch of lines side by side, line by line. -/
theorem flatMap_lines {start n : Nat} (h : start + n ≤ max old.length new.length) :
    (((rows old new).drop start).take n).flatMap Row.lines = (List.range' start n).flatMap (written old new) := by
  induction n generalizing start with
  | zero => rfl
  | succ n ih =>
    have hlt : start < (rows old new).length := by rw [length_rows]; omega
    rw [List.drop_eq_getElem_cons hlt, List.take_succ_cons, List.range'_succ, List.flatMap_cons, List.flatMap_cons,
      lines_of_getElem? (List.getElem?_eq_getElem hlt), ih (by omega)]

theorem lines_around (old new : List Text) (f : Nat) :
    (Hunk.around (max old.length new.length) f).lines (rows old new) =
      (Hunk.around (max old.length new.length) f).title ::
        (Hunk.around (max old.length new.length) f).numbers.flatMap (written old new) := by
  unfold Hunk.lines Hunk.rows Hunk.numbers Hunk.around
  dsimp only
  rw [List.drop_take]
  by_cases hf : f - 2 ≤ min (f + 3) (max old.length new.length)
  · rw [flatMap_lines (by omega)]
  · have hnone : min (f + 3) (max old.length new.length) - (f - 2) = 0 := by omega
    rw [hnone]
    rfl

/-- The number of stretches in which a line lies. -/
def stretches (fs : List Nat) (j : Nat) : Nat := fs.countP fun f => f ≤ j ∧ j < f + 3

/-- The number of stretches in front of which a line is shown. -/
def contexts (fs : List Nat) (j : Nat) : Nat := fs.countP fun f => j < f ∧ f ≤ j + 2

theorem count_numbers {total : Nat} (hj : j < total) (f : Nat) : (Hunk.around total f).numbers.count j =
    (if f ≤ j ∧ j < f + 3 then 1 else 0) + if j < f ∧ f ≤ j + 2 then 1 else 0 := by
  have hnodup : (Hunk.around total f).numbers.Nodup := List.nodup_range'
  rw [hnodup.count]
  simp only [Hunk.numbers, Hunk.around, List.mem_range'_1]
  split_ifs <;> omega

theorem count_flatMap_numbers {total : Nat} (hj : j < total) (fs : List Nat) :
    ((fs.map (Hunk.around total)).flatMap Hunk.numbers).count j = stretches fs j + contexts fs j := by
  unfold stretches contexts
  induction fs with
  | nil => rfl
  | cons f fs ih =>
    rw [List.map_cons, List.flatMap_cons, List.count_append, ih, count_numbers hj, List.countP_cons, List.countP_cons]
    simp only [decide_eq_true_eq]
    omega

theorem countP_le_one {p : Nat → Bool} (h : fs.Pairwise fun f g => ¬(p f = true ∧ p g = true)) : fs.countP p ≤ 1 := by
  induction fs with
  | nil => exact Nat.zero_le 1
  | cons f fs ih =>
    obtain ⟨hfirst, hrest⟩ := List.pairwise_cons.1 h
    by_cases hf : p f = true
    · have hnone : fs.countP p = 0 := by
        rw [List.countP_eq_zero]
        intro g hg hgp
        exact hfirst g hg ⟨hf, hgp⟩
      rw [List.countP_cons_of_pos hf, hnone]
    · rw [List.countP_cons_of_neg hf]
      exact ih hrest

theorem Starts.stretches_le_one (h : Starts old new 0 fs) (j : Nat) : stretches fs j ≤ 1 := by
  apply countP_le_one
  refine h.apart.imp ?_
  intro f g hfar
  simp only [decide_eq_true_eq]
  omega

theorem Starts.contexts_le_one (h : Starts old new 0 fs) (j : Nat) : contexts fs j ≤ 1 := by
  apply countP_le_one
  refine h.apart.imp ?_
  intro f g hfar
  simp only [decide_eq_true_eq]
  omega

theorem stretches_pos : 0 < stretches fs j ↔ ∃ f ∈ fs, f ≤ j ∧ j < f + 3 := by
  simp [stretches, List.countP_pos_iff]

theorem contexts_pos : 0 < contexts fs j ↔ ∃ f ∈ fs, j < f ∧ f ≤ j + 2 := by
  simp [contexts, List.countP_pos_iff]

theorem count_shown (h : Starts old new 0 fs) (hj : j < max old.length new.length) :
    (shown old new).count j = stretches fs j + contexts fs j := by
  obtain ⟨gs, hgs, hhunks⟩ := exists_starts old new 0
  rw [h.unique hgs, shown, hunks, hhunks, count_flatMap_numbers hj]

theorem lt_of_mem_shown (h : j ∈ shown old new) : j < max old.length new.length := by
  obtain ⟨fs, -, hhunks⟩ := exists_starts old new 0
  rw [shown, hunks, hhunks] at h
  obtain ⟨hunk, hmem, hj⟩ := List.mem_flatMap.1 h
  obtain ⟨f, -, rfl⟩ := List.mem_map.1 hmem
  simp only [Hunk.numbers, Hunk.around, List.mem_range'_1] at hj
  omega

/-- A line is shown twice if it lies in a stretch and at most two lines in front of another one. -/
theorem count_shown_eq_two_iff (h : Starts old new 0 fs) : (shown old new).count j = 2 ↔
    ∃ f ∈ fs, ∃ g ∈ fs, f ≤ j ∧ j < f + 3 ∧ j < g ∧ g ≤ j + 2 := by
  have hstretches := h.stretches_le_one j
  have hcontexts := h.contexts_le_one j
  constructor
  · intro htwo
    have hlt := lt_of_mem_shown (List.count_pos_iff.1 (by omega : 0 < (shown old new).count j))
    rw [count_shown h hlt] at htwo
    obtain ⟨f, hf, hstart, hstop⟩ := stretches_pos.1 (by omega : 0 < stretches fs j)
    obtain ⟨g, hg, hfront, hnear⟩ := contexts_pos.1 (by omega : 0 < contexts fs j)
    exact ⟨f, hf, g, hg, hstart, hstop, hfront, hnear⟩
  · rintro ⟨f, hf, g, hg, hstart, hstop, hfront, hnear⟩
    have hlt := (h.changed g hg).2.lt
    have hin := stretches_pos.2 ⟨f, hf, hstart, hstop⟩
    have hbefore := contexts_pos.2 ⟨g, hg, hfront, hnear⟩
    rw [count_shown h (by omega)]
    omega

theorem count_shown_le_two (h : Starts old new 0 fs) (j : Nat) : (shown old new).count j ≤ 2 := by
  by_cases hj : j ∈ shown old new
  · have hstretches := h.stretches_le_one j
    have hcontexts := h.contexts_le_one j
    rw [count_shown h (lt_of_mem_shown hj)]
    omega
  · rw [List.count_eq_zero_of_not_mem hj]
    omega

theorem Changed.count_shown_pos (hc : Changed old new j) (h : Starts old new 0 fs) :
    0 < (shown old new).count j := by
  obtain ⟨f, hf, hin⟩ := h.complete j (Nat.zero_le j) hc
  have hpos := stretches_pos.2 ⟨f, hf, hin⟩
  rw [count_shown h hc.lt]
  omega

/-- The last line of a stretch is shown twice if the next stretch follows too soon. -/
theorem count_shown_le_one_iff (h : Starts old new 0 fs) :
    (∀ j, (shown old new).count j ≤ 1) ↔ fs.Pairwise fun f g => f + 5 ≤ g := by
  constructor
  · intro hone
    refine h.apart.imp_of_mem ?_
    intro f g hf hg hfar
    by_contra hsoon
    have htwo := (count_shown_eq_two_iff h).2 ⟨f, hf, g, hg, (by omega : f ≤ f + 2), by omega, by omega, by omega⟩
    have hle := hone (f + 2)
    omega
  · intro hfar j
    have htwo : (shown old new).count j ≠ 2 := by
      intro htwo
      obtain ⟨f, hf, g, hg, hstart, hstop, hfront, hnear⟩ := (count_shown_eq_two_iff h).1 htwo
      have hgap := far_of_pairwise hfar hf hg (by omega)
      omega
    have hle := count_shown_le_two h j
    omega

/-- **Every line in which two texts differ is shown, and no line is shown twice exactly if there are always two lines
between two stretches.** A difference is made of the hunks of the stretches, each with its title and its lines. A line
is shown as often as its number is in one of them, which is once or twice where the texts differ. It is shown twice if
it lies in one stretch and right in front of the next. -/
theorem shown_once_iff (path old new : Text) : ∃ fs : List Nat,
    (∀ gs, Starts old.lines new.lines 0 gs ↔ gs = fs) ∧
    hunks (rows old.lines new.lines) = fs.map (Hunk.around (max old.lines.length new.lines.length)) ∧
    lines path old new = [utf8 "--- " ++ path, utf8 "+++ " ++ path] ++
      (hunks (rows old.lines new.lines)).flatMap
        (fun h => h.title :: h.numbers.flatMap (written old.lines new.lines)) ∧
    (∀ j, (shown old.lines new.lines).count j ≤ 2) ∧
    (∀ j, Changed old.lines new.lines j → 1 ≤ (shown old.lines new.lines).count j) ∧
    (∀ j, (shown old.lines new.lines).count j = 2 ↔
      ∃ f ∈ fs, ∃ g ∈ fs, f ≤ j ∧ j < f + 3 ∧ j < g ∧ g ≤ j + 2) ∧
    ((∀ j, (shown old.lines new.lines).count j ≤ 1) ↔ fs.Pairwise fun f g => f + 5 ≤ g) := by
  obtain ⟨fs, hfs, hhunks⟩ := exists_starts old.lines new.lines 0
  refine ⟨fs, ?_, hhunks, ?_, count_shown_le_two hfs, fun j hc => hc.count_shown_pos hfs,
    fun j => count_shown_eq_two_iff hfs, count_shown_le_one_iff hfs⟩
  · intro gs
    constructor
    · intro hgs
      exact hgs.unique hfs
    · rintro rfl
      exact hfs
  · have hlines : ∀ h ∈ hunks (rows old.lines new.lines),
        h.lines (rows old.lines new.lines) = h.title :: h.numbers.flatMap (written old.lines new.lines) := by
      intro h hh
      rw [hunks, hhunks] at hh
      obtain ⟨f, -, rfl⟩ := List.mem_map.1 hh
      exact lines_around old.lines new.lines f
    rw [lines, List.flatMap_congr hlines]

/-- The second line of these texts is in the hunk of the first one, and the hunk of the fourth one shows it again. -/
theorem changed_shown_twice :
    Changed (utf8 "a\nb\nc\nd").lines (utf8 "A\nB\nc\nD").lines 1 ∧
      (shown (utf8 "a\nb\nc\nd").lines (utf8 "A\nB\nc\nD").lines).count 1 = 2 ∧
      written (utf8 "a\nb\nc\nd").lines (utf8 "A\nB\nc\nD").lines 1 = [utf8 "-b", utf8 "+B"] := by
  have hstarts : Starts (utf8 "a\nb\nc\nd").lines (utf8 "A\nB\nc\nD").lines 0 [0, 3] := by
    refine ⟨by decide +kernel, by decide, ?_⟩
    intro j _ hc
    have hlt := hc.lt
    rw [show max (utf8 "a\nb\nc\nd").lines.length (utf8 "A\nB\nc\nD").lines.length = 4 by decide +kernel] at hlt
    simp only [List.mem_cons, List.not_mem_nil, or_false, exists_eq_or_imp, exists_eq_left]
    omega
  exact ⟨by decide +kernel, (count_shown_eq_two_iff hstarts).2 (by decide), by decide +kernel⟩

end Diff

end PhpClass
