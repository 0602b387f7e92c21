import PhpClass.Command.Format
import PhpClass.Proofs.Excerpt
import PhpClass.Proofs.Hunk
import PhpClass.Proofs.Lines

/-!
# When a difference shows a change

Files are compared byte by byte, but a difference is made of lines, which do not hold their ends. So a file can count as
one that would be formatted while nothing is shown of what would change. A canonical text never ends in a line feed
(`ClassFile.getLast?_generate`). Hence this happens exactly if the file is its canonical form but for the carriage
returns in front of line feeds and one line break at its end (`Text.SameUpToEnds`, `Format.shows_change_iff`).
-/

namespace PhpClass

open Text

namespace Text

/-! ## Ends of lines -/

/-- The text with a line feed in the place of each carriage return with a line feed. -/
def plainEnds : Text → Text
  | [] => []
  | b :: t => if b = Byte.carriageReturn ∧ t.head? = some Byte.lineFeed then plainEnds t else b :: plainEnds t

/-- But for the ends of its lines, and one more of them behind the last, the one text is the other. -/
def SameUpToEnds (t u : Text) : Prop := plainEnds t = plainEnds u ∨ plainEnds t = plainEnds u ++ newline

theorem plainEnds_of_not_mem {t : Text} (h : Byte.lineFeed ∉ t) : plainEnds t = t := by
  induction t with
  | nil => rfl
  | cons b t ih =>
    have ht := fun hm => h (List.mem_cons_of_mem b hm)
    have hhead : ¬(b = Byte.carriageReturn ∧ t.head? = some Byte.lineFeed) := fun hb =>
      ht (List.mem_of_head? hb.2)
    rw [plainEnds, if_neg hhead, ih ht]

/-- In front of a line feed a text loses what its line loses. -/
theorem plainEnds_append {p : Text} (h : Byte.lineFeed ∉ p) (t : Text) :
    plainEnds (p ++ Byte.lineFeed :: t) = dropReturn p ++ Byte.lineFeed :: plainEnds t := by
  induction p with
  | nil => rw [List.nil_append, plainEnds, if_neg (by simp [Byte.lineFeed, Byte.carriageReturn])]; rfl
  | cons b p ih =>
    have hp := fun hm => h (List.mem_cons_of_mem b hm)
    rw [List.cons_append, plainEnds, ih hp]
    cases p with
    | nil =>
      by_cases hb : b = Byte.carriageReturn
      · rw [if_pos ⟨hb, rfl⟩, hb]
        rfl
      · rw [if_neg fun hc => hb hc.1, dropReturn_eq_self (t := [b]) (by simpa using Ne.symm hb)]
        rfl
    | cons c p =>
      have hc : c ≠ Byte.lineFeed := by
        rintro rfl
        exact hp List.mem_cons_self
      have hdrop : dropReturn (b :: c :: p) = b :: dropReturn (c :: p) := by
        unfold dropReturn
        rw [List.getLast?_cons_cons]
        split <;> rfl
      rw [if_neg (by simp [hc]), hdrop]
      rfl

theorem plainEnds_flatMap {ps : List Text} (h : ∀ p ∈ ps, Byte.lineFeed ∉ p) (t : Text) :
    plainEnds (ps.flatMap (· ++ newline) ++ t) = (ps.map dropReturn).flatMap (· ++ newline) ++ plainEnds t := by
  induction ps with
  | nil => rfl
  | cons p ps ih =>
    obtain ⟨hp, hps⟩ := List.forall_mem_cons.1 h
    rw [List.flatMap_cons, List.append_assoc, List.append_assoc, List.map_cons, List.flatMap_cons,
      List.append_assoc, List.append_assoc, ← ih hps]
    exact plainEnds_append hp _

theorem pieces_inj {t u : Text} : pieces t = pieces u ↔ t = u := by
  constructor
  · intro h
    rw [← join_pieces t, h, join_pieces]
  · exact congrArg pieces

/-- All pieces but the last end at a line feed. -/
theorem pieces_plainEnds {t p : Text} {ps : List Text} (h : pieces t = ps ++ [p]) :
    pieces (plainEnds t) = ps.map dropReturn ++ [p] := by
  obtain ⟨qs, hqs, ht, -⟩ := exists_earlier t
  have hpieces := pieces_flatMap hqs (lastLine t)
  rw [← ht, pieces_of_not_mem (not_mem_lastLine t), h] at hpieces
  obtain ⟨rfl, hlast⟩ := List.append_inj' hpieces rfl
  obtain ⟨rfl, -⟩ := List.cons.inj hlast
  have hkept : ∀ p ∈ ps.map dropReturn, Byte.lineFeed ∉ p := by
    intro p hp
    obtain ⟨q, hq, rfl⟩ := List.mem_map.1 hp
    exact fun hm => hqs q hq ((dropReturn_sublist q).mem hm)
  conv => lhs; rw [ht, plainEnds_flatMap hqs, pieces_flatMap hkept, plainEnds_of_not_mem (not_mem_lastLine t),
    pieces_of_not_mem (not_mem_lastLine t)]

/-- A text that does not end in a line feed has the lines of those texts only that are the same up to the ends of
lines. -/
theorem lines_eq_iff {t u : Text} (hne : u ≠ []) (hu : u.getLast? ≠ some Byte.lineFeed) :
    lines t = lines u ↔ SameUpToEnds t u := by
  obtain ⟨ps, p, hp, hlines⟩ := exists_lines t
  obtain ⟨qs, q, hq, hlines'⟩ := exists_lines u
  have hlast : q ≠ [] := by
    rintro rfl
    rcases pieces_getLast? (t := u) (by rw [hq, List.getLast?_concat]) with h | h
    · exact hne h
    · exact hu h
  have hnewline : pieces (plainEnds u ++ newline) = (qs.map dropReturn ++ [q]) ++ [[]] := by
    rw [← pieces_plainEnds hq]
    exact List.splitOn_append_cons_self (plainEnds u) []
  unfold SameUpToEnds
  rw [← pieces_inj, ← pieces_inj (t := plainEnds t) (u := plainEnds u ++ newline), hnewline, pieces_plainEnds hp,
    pieces_plainEnds hq, hlines, hlines', if_neg hlast]
  by_cases hempty : p = []
  · rw [if_pos hempty, List.append_nil]
    constructor
    · intro h
      exact .inr (List.append_singleton_inj.2 ⟨h, hempty⟩)
    · rintro (h | h)
      · exact absurd ((List.append_singleton_inj.1 h).2.symm.trans hempty) hlast
      · exact (List.append_singleton_inj.1 h).1
  · rw [if_neg hempty]
    constructor
    · exact .inl
    · rintro (h | h)
      · exact h
      · exact absurd (List.append_singleton_inj.1 h).2 hempty

end Text

namespace Diff

/-- Some hunk of the difference has a line of one text only. -/
def ShowsChange (old new : Text) : Prop :=
  ∃ h ∈ hunks (rows old.lines new.lines), ∃ line ∈ (h.rows (rows old.lines new.lines)).flatMap Row.lines,
    utf8 "-" <+: line ∨ utf8 "+" <+: line

/-- Of a line in which the texts differ something is written with a mark. -/
theorem Changed.exists_written {old new : List Text} {j : Nat} (h : Changed old new j) :
    ∃ line ∈ written old new j, utf8 "-" <+: line ∨ utf8 "+" <+: line := by
  unfold written
  rw [if_pos h]
  cases hold : old[j]? with
  | some line => exact ⟨utf8 "-" ++ line, by simp, .inl (List.prefix_append _ _)⟩
  | none =>
    cases hnew : new[j]? with
    | some line => exact ⟨utf8 "+" ++ line, by simp, .inr (List.prefix_append _ _)⟩
    | none => exact absurd (hold.trans hnew.symm) h

/-- A hunk belongs to a line in which the texts differ. -/
theorem hunks_eq_nil (lines : List Text) : hunks (rows lines lines) = [] := by
  obtain ⟨fs, hfs, hhunks⟩ := exists_starts lines lines 0
  rw [hunks, hhunks, List.map_eq_nil_iff, List.eq_nil_iff_forall_not_mem]
  exact fun f hf => (hfs.changed f hf).2 rfl

/-- A change is shown if the texts have not the same lines. -/
theorem showsChange_iff {old new : Text} : ShowsChange old new ↔ old.lines ≠ new.lines := by
  constructor
  · rintro ⟨h, hh, -⟩ heq
    rw [heq, hunks_eq_nil] at hh
    cases hh
  · intro hne
    obtain ⟨j, hj⟩ : ∃ j, Changed old.lines new.lines j := by
      by_contra hno
      exact hne (List.ext_getElem? fun j => not_not.1 (not_exists.1 hno j))
    obtain ⟨fs, hfs, hhunks⟩ := exists_starts old.lines new.lines 0
    obtain ⟨f, hf, hstart, hstop⟩ := hfs.complete j (Nat.zero_le j) hj
    have hlt := hj.lt
    have hnumber : j ∈ (Hunk.around (max old.lines.length new.lines.length) f).numbers := by
      simp only [Hunk.numbers, Hunk.around, List.mem_range'_1]
      omega
    obtain ⟨line, hline, hmark⟩ := hj.exists_written
    refine ⟨Hunk.around (max old.lines.length new.lines.length) f, ?_, line, ?_, hmark⟩
    · rw [hunks, hhunks]
      exact List.mem_map_of_mem hf
    · rw [(List.cons.inj (lines_around old.lines new.lines f)).2]
      exact List.mem_flatMap.2 ⟨j, hnumber, hline⟩

end Diff

/-- A canonical text ends with the closing brace of the class. -/
theorem ClassFile.getLast?_generate (f : ClassFile) : f.generate.getLast? = some Byte.closeBrace := by
  have hbrace : Layout.standard.render [.word "\x7d"] = [Byte.closeBrace] := by decide
  unfold generate pieces
  rw [Layout.render_append, hbrace, List.getLast?_concat]

namespace Format

theorem run_formatFile_diff {s : Session} {path old : Text} {f : ClassFile} (hread : s.disk.read path = .ok old)
    (hparse : ClassFile.parse old = .ok f) (hne : f.generate ≠ old) :
    (formatFile { diff := true } path).run s =
      (.ok .wouldFormat, { s with output := s.output ++ Diff.text path old f.generate }) := by
  have hverdict : Verdict.ofContent path (.ok old) = .changed old f.generate := by
    have hnew : regenerate old = .ok f.generate := by rw [regenerate, hparse]; rfl
    simp only [Verdict.ofContent, hnew, if_neg hne]
  have hformat : (formatFile { diff := true } path).run s =
      (settle { diff := true } path (s.disk.read path)).run s := rfl
  rw [hformat, hread, settle, hverdict]
  rfl

/-- **A file that would be formatted shows a change exactly if it is not its canonical form up to the ends of lines.**
If it is, then of the difference only the names of the files are written. -/
theorem shows_change_iff {old : Text} {f : ClassFile} (hparse : ClassFile.parse old = .ok f)
    (hne : f.generate ≠ old) :
    (Diff.ShowsChange old f.generate ↔ ¬SameUpToEnds old f.generate) ∧
      ∀ (s : Session) (path : Text), s.disk.read path = .ok old →
        (formatFile { diff := true } path).run s =
          (.ok .wouldFormat, { s with output := s.output ++ Diff.text path old f.generate }) ∧
        (SameUpToEnds old f.generate →
          Diff.text path old f.generate = utf8 "--- " ++ path ++ newline ++ (utf8 "+++ " ++ path ++ newline)) := by
  have hlast := f.getLast?_generate
  have hlines : lines old = lines f.generate ↔ SameUpToEnds old f.generate := by
    apply lines_eq_iff
    · intro hnil
      rw [hnil] at hlast
      cases hlast
    · rw [hlast]
      decide
  refine ⟨Diff.showsChange_iff.trans (not_congr hlines), ?_⟩
  intro s path hread
  refine ⟨run_formatFile_diff hread hparse hne, ?_⟩
  intro hsame
  rw [Diff.text, Diff.lines, hlines.2 hsame, Diff.hunks_eq_nil]
  simp

/-- A brace that is moved to its own line is shown. -/
theorem shows_moved_brace : ∃ f : ClassFile, ClassFile.parse (utf8 "<?php namespace A; class C \x7b \x7d") = .ok f ∧
    f.generate ≠ utf8 "<?php namespace A; class C \x7b \x7d" ∧
    Diff.ShowsChange (utf8 "<?php namespace A; class C \x7b \x7d") f.generate := by
  have hread : (ClassFile.parse (utf8 "<?php namespace A; class C \x7b \x7d")).toOption.map
      (fun f => f.generate) = some (utf8 "<?php\n\n\nnamespace A;\n\n\nclass C\n\x7b\n\n\n\x7d") := by decide +kernel
  obtain ⟨f, hparse, hf⟩ := map_toOption_eq_some.1 hread
  have hne : f.generate ≠ utf8 "<?php namespace A; class C \x7b \x7d" := by
    rw [hf]
    decide +kernel
  refine ⟨f, hparse, hne, (shows_change_iff hparse hne).1.2 ?_⟩
  unfold SameUpToEnds
  rw [hf]
  decide +kernel

/-- A line feed behind the closing brace would be taken away, and nothing is shown of it. -/
theorem hides_final_newline :
    let old := utf8 "<?php\n\n\nnamespace A;\n\n\nclass C\n\x7b\n\n\n\x7d\n"
    ∃ f : ClassFile, ClassFile.parse old = .ok f ∧ f.generate ≠ old ∧ ¬Diff.ShowsChange old f.generate := by
  intro old
  have hread : (ClassFile.parse old).toOption.map
      (fun f => f.generate) = some (utf8 "<?php\n\n\nnamespace A;\n\n\nclass C\n\x7b\n\n\n\x7d") := by decide +kernel
  obtain ⟨f, hparse, hf⟩ := map_toOption_eq_some.1 hread
  refine ⟨f, hparse, ?_, ?_⟩
  · rw [hf]
    decide +kernel
  · rw [Diff.showsChange_iff, hf, not_not]
    decide +kernel

end Format

end PhpClass
