import Mathlib.Algebra.BigOperators.Group.List.Basic
import PhpClass.Proofs.FormatRun

/-!
# How files are counted

A run visits the reached paths in turn, wherever they come from: an argument that leads to a directory reaches the
class files below it, any other argument itself (`Format.run_formatPaths`). Each visit counts once, and as what it
counts depends on the file that it finds (`Format.summary_visit`). A run that only checks finds the disk with which
it began at every visit.

* `Format.check_is_exact`: when a check succeeds, and what the totals of a run add up to.
-/

namespace PhpClass

namespace Format

/-! ## Totals -/

namespace Summary

@[simp] theorem formatted_add (a b : Summary) : (a + b).formatted = a.formatted + b.formatted := rfl

@[simp] theorem unchanged_add (a b : Summary) : (a + b).unchanged = a.unchanged + b.unchanged := rfl

@[simp] theorem errors_add (a b : Summary) : (a + b).errors = a.errors + b.errors := rfl

@[ext] theorem ext {a b : Summary} (hformatted : a.formatted = b.formatted) (hunchanged : a.unchanged = b.unchanged)
    (herrors : a.errors = b.errors) : a = b := by
  cases a
  cases b
  simp_all

instance : Zero Summary := ⟨{}⟩

instance : AddCommMonoid Summary where
  add_assoc a b c := by ext <;> simp [Nat.add_assoc]
  zero_add a := by ext <;> exact Nat.zero_add _
  add_zero a := rfl
  add_comm a b := by ext <;> simp [Nat.add_comm]
  nsmul := nsmulRec

end Summary

/-! ## One visit -/

theorem result_bind {α β : Type} (c : Command α) (f : α → Command β) (s : Session) :
    ((c >>= f).run s).1 = ((f (c.run s).1).run (behind c s)).1 := rfl

theorem run_disk_bind {α : Type} (f : Disk → Command α) (s : Session) :
    (Command.disk >>= f).run s = (f s.disk).run s := rfl

/-- Whether a path leads to a class file. -/
def isClassFile (d : Disk) (path : Text) : Bool :=
  match d.read path with
  | .ok content => (ClassFile.parse content).isOk
  | .error _ => false

/-- Whether a path leads to a class file in canonical form. -/
def isCanonical (d : Disk) (path : Text) : Bool :=
  match d.read path with
  | .ok content => decide ((regenerate content).toOption = some content)
  | .error _ => false

theorem isCanonical_iff {d : Disk} {path : Text} :
    isCanonical d path = true ↔ ∃ content, d.read path = .ok content ∧
      ∃ f, ClassFile.parse content = .ok f ∧ f.generate = content := by
  unfold isCanonical regenerate
  cases d.read path with
  | error e => simp
  | ok content =>
    simp only [decide_eq_true_eq, Except.ok.injEq, exists_eq_left']
    cases ClassFile.parse content with
    | error e => simp [Except.map, Except.toOption]
    | ok f => simp [Except.map, Except.toOption]

theorem isCanonical_iff_file {d : Disk} {path : Text} :
    isCanonical d path = true ↔ ∃ address content f, d.resolve path = .ok address ∧
      d.root.file? address = some content ∧ Text.isUtf8 content = true ∧
      ClassFile.parse content = .ok f ∧ f.generate = content := by
  rw [isCanonical_iff]
  constructor
  · rintro ⟨content, hread, f, hparse, hsame⟩
    obtain ⟨⟨address, hpath, hfile⟩, hutf8⟩ := Disk.read_eq_ok.1 hread
    exact ⟨address, content, f, hpath, hfile, hutf8, hparse, hsame⟩
  · rintro ⟨address, content, f, hpath, hfile, hutf8, hparse, hsame⟩
    exact ⟨content, Disk.read_eq_ok.2 ⟨⟨address, hpath, hfile⟩, hutf8⟩, f, hparse, hsame⟩

/-- As what a file counts. -/
def tally (d : Disk) (path : Text) : Summary :=
  if isCanonical d path then { unchanged := 1 }
  else if isClassFile d path then { formatted := 1 }
  else { errors := 1 }

/-- What a file counts as depends on what is read of it. -/
theorem tally_congr {d e : Disk} {path : Text} (h : d.read path = e.read path) : tally d path = tally e path := by
  unfold tally isCanonical isClassFile
  rw [h]

theorem isClassFile_of_isCanonical {d : Disk} {path : Text} (h : isCanonical d path = true) :
    isClassFile d path = true := by
  obtain ⟨content, hread, f, hparse, -⟩ := isCanonical_iff.1 h
  rw [isClassFile, hread]
  simp only [hparse]
  rfl

/-- Each file counts once. -/
theorem tally_counts (d : Disk) (path : Text) :
    (tally d path).unchanged = (if isCanonical d path then 1 else 0) ∧
      (tally d path).errors = (if !isClassFile d path then 1 else 0) ∧
      (tally d path).formatted + (tally d path).unchanged + (tally d path).errors = 1 := by
  unfold tally
  by_cases hcanonical : isCanonical d path = true
  · have hfile := isClassFile_of_isCanonical hcanonical
    simp [hcanonical, hfile]
  · by_cases hfile : isClassFile d path = true <;> simp [hcanonical, hfile]

/-- What becomes of a file. -/
def Verdict.result (mode : Mode) : Verdict → Except Text Outcome
  | broken report => .error report
  | canonical => .ok .unchanged
  | changed _ _ => .ok (if mode.check || mode.diff then .wouldFormat else .formatted)

/-- As what a file counts of which this has become. -/
def countOf : Except Text Outcome → Summary
  | .error _ => { errors := 1 }
  | .ok .unchanged => { unchanged := 1 }
  | .ok _ => { formatted := 1 }

theorem result_formatFile (mode : Mode) (path : Text) (s : Session) :
    ((formatFile mode path).run s).1 = (Verdict.ofContent path (s.disk.read path)).result mode := by
  rw [formatFile, run_disk_bind, settle]
  cases Verdict.ofContent path (s.disk.read path) with
  | broken report => rfl
  | canonical => rfl
  | changed old new =>
    unfold Verdict.result
    cases mode.check <;> cases mode.diff <;> rfl

theorem summary_record (mode : Mode) (path : Text) (result : Except Text Outcome) (s : Session) :
    ((record mode path result).run s).1 = countOf result := by
  cases result with
  | error report => rfl
  | ok outcome =>
    cases outcome with
    | unchanged => rfl
    | formatted => rfl
    | wouldFormat =>
      simp only [record]
      split <;> rfl

theorem countOf_result (mode : Mode) (d : Disk) (path : Text) :
    countOf ((Verdict.ofContent path (d.read path)).result mode) = tally d path := by
  unfold tally isCanonical isClassFile Verdict.ofContent regenerate
  cases d.read path with
  | error e => rfl
  | ok content =>
    cases hparse : ClassFile.parse content with
    | error e => simp [hparse, Except.map, Except.toOption, Except.isOk, Except.toBool, Verdict.result, countOf]
    | ok f =>
      by_cases hsame : f.generate = content
      · simp [hparse, Except.map, Except.toOption, hsame, Verdict.result, countOf]
      · by_cases hdry : (mode.check || mode.diff) = true <;>
          simp [hparse, Except.map, Except.toOption, Except.isOk, Except.toBool, hsame, Verdict.result, countOf, hdry]

/-- A visit counts the file that it finds, in every mode. -/
theorem summary_visit (mode : Mode) (path : Text) (s : Session) :
    ((visit mode path).run s).1 = tally s.disk path := by
  have hvisit : ((visit mode path).run s).1 =
      ((record mode path ((formatFile mode path).run s).1).run (behind (formatFile mode path) s)).1 := rfl
  rw [hvisit, summary_record, result_formatFile, countOf_result]

/-! ## Where the visits go -/

/-- A visit changes no name, in any mode. -/
theorem blank_visit (mode : Mode) (path : Text) (s : Session) :
    (behind (visit mode path) s).disk.blank = s.disk.blank := by
  by_cases hdry : (mode.check || mode.diff) = true
  · rw [disk_visit_of_dry hdry]
  · have hplain : mode = {} := by
      cases mode
      simp_all
    rw [hplain]
    exact (formatted_visit path s).blank_eq

theorem blank_visitAll (mode : Mode) (paths : List Text) (s : Session) :
    (behind (visitAll mode paths) s).disk.blank = s.disk.blank := by
  induction paths generalizing s with
  | nil => rfl
  | cons path paths ih => exact (ih (behind (visit mode path) s)).trans (blank_visit mode path s)

/-- Which paths are visited for an argument depends on the names alone. -/
theorem visited_of_blank_eq {d e : Disk} (h : e.blank = d.blank) : visited e = visited d := by
  funext arg
  have hdir : e.isDir arg = d.isDir arg := by rw [← e.isDir_blank, h, d.isDir_blank]
  have hunder : Files.under e arg = Files.under d arg := by
    rw [← Files.under_blank, h, Files.under_blank]
  unfold visited
  rw [hdir, hunder]

/-- The files below a directory can be listed. -/
theorem exists_under {d : Disk} {path : Text} (h : d.isDir path = true) : ∃ paths, Files.under d path = .ok paths := by
  obtain ⟨address, entries, hpath, hentries⟩ := Disk.isDir_iff.1 h
  have hok : d.entries path = .ok entries := by
    unfold Disk.entries
    rw [Disk.node_eq_ok.2 ⟨address, hpath, hentries⟩]
    rfl
  exact ⟨_, by rw [Files.under, hok]; rfl⟩

/-- What can be listed is a directory. -/
theorem visited_of_under {d : Disk} {path : Text} {paths : List Text} (h : Files.under d path = .ok paths) :
    visited d path = paths := by
  have hdir : d.isDir path = true := by
    unfold Files.under Disk.entries at h
    unfold Disk.isDir
    cases hnode : d.node path with
    | error cause => simp [hnode, bind, Except.bind, Except.map] at h
    | ok node =>
      cases node with
      | dir entries => rfl
      | file content => simp [hnode, bind, Except.bind, Except.map] at h
  rw [visited, if_pos hdir, h]
  rfl

theorem run_visitAll_append (mode : Mode) (xs ys : List Text) (s : Session) :
    (visitAll mode (xs ++ ys)).run s =
      (((visitAll mode xs).run s).1 + ((visitAll mode ys).run (behind (visitAll mode xs) s)).1,
        behind (visitAll mode ys) (behind (visitAll mode xs) s)) := by
  induction xs generalizing s with
  | nil => exact Prod.ext (zero_add _).symm rfl
  | cons x xs ih =>
    have hcons : (visitAll mode (x :: xs ++ ys)).run s =
        (((visit mode x).run s).1 + ((visitAll mode (xs ++ ys)).run (behind (visit mode x) s)).1,
          ((visitAll mode (xs ++ ys)).run (behind (visit mode x) s)).2) := rfl
    rw [hcons, ih]
    exact Prod.ext (add_assoc _ _ _).symm rfl

/-- An argument is formatted by visiting the paths that it reaches. -/
theorem run_formatPath (mode : Mode) (arg : Text) (s : Session) :
    (formatPath mode arg).run s = (visitAll mode (visited s.disk arg)).run s := by
  rw [formatPath, run_disk_bind, visited]
  by_cases hdir : s.disk.isDir arg = true
  · obtain ⟨paths, hunder⟩ := exists_under hdir
    rw [if_pos hdir, if_pos hdir, formatDirectory, run_disk_bind, hunder]
    rfl
  · rw [if_neg hdir, if_neg hdir]
    exact Prod.ext (add_zero _).symm rfl

/-- A run visits what its arguments reach, one after the other. -/
theorem run_formatPaths (mode : Mode) (paths : List Text) (s : Session) :
    (formatPaths mode paths).run s = (visitAll mode (paths.flatMap (visited s.disk))).run s := by
  induction paths generalizing s with
  | nil => rfl
  | cons path paths ih =>
    have hcons : (formatPaths mode (path :: paths)).run s =
        (((formatPath mode path).run s).1 + ((formatPaths mode paths).run (behind (formatPath mode path) s)).1,
          ((formatPaths mode paths).run (behind (formatPath mode path) s)).2) := rfl
    have hbehind : behind (formatPath mode path) s = behind (visitAll mode (visited s.disk path)) s :=
      congrArg Prod.snd (run_formatPath mode path s)
    have hvisited : visited (behind (visitAll mode (visited s.disk path)) s).disk = visited s.disk :=
      visited_of_blank_eq (blank_visitAll mode _ s)
    rw [hcons, ih, hbehind, hvisited, run_formatPath, List.flatMap_cons, run_visitAll_append]
    rfl

/-! ## Many visits -/

/-- The visits of a run, each with the disk that it finds. -/
def visits (mode : Mode) : List Text → Session → List (Disk × Text)
  | [], _ => []
  | path :: paths, s => (s.disk, path) :: visits mode paths (behind (visit mode path) s)

theorem visits_snd (mode : Mode) (paths : List Text) (s : Session) : (visits mode paths s).map Prod.snd = paths := by
  induction paths generalizing s with
  | nil => rfl
  | cons path paths ih => rw [visits, List.map_cons, ih]

theorem visits_of_dry {mode : Mode} (h : (mode.check || mode.diff) = true) (paths : List Text) (s : Session) :
    visits mode paths s = paths.map fun path => (s.disk, path) := by
  induction paths generalizing s with
  | nil => rfl
  | cons path paths ih => rw [visits, ih, disk_visit_of_dry h, List.map_cons]

/-- A run counts its visits, each once. -/
theorem summary_visitAll (mode : Mode) (paths : List Text) (s : Session) :
    ((visitAll mode paths).run s).1 = ((visits mode paths s).map fun v => tally v.1 v.2).sum := by
  induction paths generalizing s with
  | nil => rfl
  | cons path paths ih =>
    have hcons : ((visitAll mode (path :: paths)).run s).1 =
        ((visit mode path).run s).1 + ((visitAll mode paths).run (behind (visit mode path) s)).1 := rfl
    rw [hcons, ih, summary_visit, visits, List.map_cons, List.sum_cons]

/-- What the totals say about the files that were found. -/
theorem sum_tally (found : List (Disk × Text)) :
    let total := (found.map fun v => tally v.1 v.2).sum
    total.unchanged = found.countP (fun v => isCanonical v.1 v.2) ∧
      total.errors = found.countP (fun v => !isClassFile v.1 v.2) ∧
      total.formatted + total.unchanged + total.errors = found.length := by
  induction found with
  | nil => exact ⟨rfl, rfl, rfl⟩
  | cons v found ih =>
    obtain ⟨hunchanged, herrors, hsum⟩ := ih
    obtain ⟨hfirstUnchanged, hfirstErrors, hfirst⟩ := tally_counts v.1 v.2
    dsimp only
    rw [List.map_cons, List.sum_cons, List.countP_cons, List.countP_cons, List.length_cons]
    simp only [Summary.formatted_add, Summary.unchanged_add, Summary.errors_add]
    omega

/-! ## Checking -/

/-- The arguments that are no options. -/
def pathArgs (args : List Text) : List Text := args.filter fun arg => !Text.startsWith (utf8 "-") arg

theorem Options.read_check {args : List Text}
    (h : ∀ arg ∈ args, Text.startsWith (utf8 "-") arg = true → arg = utf8 "--check" ∨ arg = utf8 "--diff")
    (o : Options) : ∃ diff, o.read args = .run { o with
      check := o.check || args.contains (utf8 "--check")
      diff := diff
      paths := o.paths ++ pathArgs args } := by
  induction args generalizing o with
  | nil => exact ⟨o.diff, by simp [Options.read, pathArgs]⟩
  | cons arg args ih =>
    have hrest := ih fun a ha => h a (List.mem_cons_of_mem arg ha)
    by_cases hoption : Text.startsWith (utf8 "-") arg = true
    · have hpaths : pathArgs (arg :: args) = pathArgs args := List.filter_cons_of_neg (by simp [hoption])
      rw [hpaths, List.contains_cons]
      rcases h arg List.mem_cons_self hoption with rfl | rfl
      · obtain ⟨diff, hread⟩ := hrest { o with check := true }
        exact ⟨diff, by rw [Options.read, if_pos rfl, hread]; simp⟩
      · obtain ⟨diff, hread⟩ := hrest { o with diff := true }
        have hne : (utf8 "--check" == utf8 "--diff") = false := by decide
        exact ⟨diff, by rw [Options.read, if_neg (by decide), if_pos rfl, hread, hne, Bool.false_or]⟩
    · have hne : ∀ option : Text, Text.startsWith (utf8 "-") option = true → arg ≠ option := by
        rintro option hdash rfl
        exact hoption hdash
      have hpaths : pathArgs (arg :: args) = arg :: pathArgs args := List.filter_cons_of_pos (by simp [hoption])
      have hcheck : (utf8 "--check" == arg) = false := by simpa using (hne (utf8 "--check") (by decide)).symm
      obtain ⟨diff, hread⟩ := hrest { o with paths := o.paths ++ [arg] }
      refine ⟨diff, ?_⟩
      rw [Options.read, if_neg (hne _ (by decide)), if_neg (hne _ (by decide)), if_neg (hne _ (by decide)),
        if_neg (by simp [hne (utf8 "--help") (by decide), hne (utf8 "-h") (by decide)]), if_neg hoption, hread,
        hpaths, List.contains_cons, hcheck, Bool.false_or, List.append_assoc, List.singleton_append]

/-- The exit code of a run over paths depends on its totals. -/
theorem exit_runPaths (o : Options) (s : Session) :
    ((runPaths o).run s).1 =
      let total := ((formatPaths o.mode o.effectivePaths).run s).1
      if total.errors > 0 || (o.check && total.formatted > 0) then 1 else 0 := by
  rw [runPaths, result_bind]
  dsimp only
  rw [result_bind]
  split <;> rfl

/-- A run with `--check` formats what its other arguments lead to in the mode that checks. -/
theorem exit_run_check {args : List Text} (hcheck : utf8 "--check" ∈ args)
    (h : ∀ arg ∈ args, Text.startsWith (utf8 "-") arg = true → arg = utf8 "--check" ∨ arg = utf8 "--diff")
    (s : Session) : ∃ mode : Mode, mode.check = true ∧
      let paths := pathArgs args
      let total := ((formatPaths mode (if paths.isEmpty then [utf8 "."] else paths)).run s).1
      ((run args).run s).1 = if total.errors > 0 || total.formatted > 0 then 1 else 0 := by
  obtain ⟨diff, hread⟩ := Options.read_check h {}
  have hcontains : args.contains (utf8 "--check") = true := List.contains_iff_mem.2 hcheck
  have hrun : ((run args).run s).1 = ((runPaths { check := true, diff := diff, paths := pathArgs args }).run s).1 := by
    rw [run, hread, hcontains]
    rfl
  refine ⟨⟨true, diff⟩, rfl, ?_⟩
  rw [hrun, exit_runPaths]
  rfl

/-- **A check is exact, and every file is counted once.** A run with `--check` succeeds just when each path that it
reaches leads to a class file in canonical form. In every mode a run visits what its arguments reach in turn, every visit
counts once, and an error is counted for each path that leads to no class file when it is visited. -/
theorem check_is_exact (s : Session) :
    (∀ args : List Text, utf8 "--check" ∈ args →
      (∀ arg ∈ args, Text.startsWith (utf8 "-") arg = true → arg = utf8 "--check" ∨ arg = utf8 "--diff") →
      let paths := pathArgs args
      let reached := (if paths.isEmpty then [utf8 "."] else paths).flatMap (visited s.disk)
      ((run args).run s).1 = 0 ↔ ∀ path ∈ reached, ∃ address content f, s.disk.resolve path = .ok address ∧
        s.disk.root.file? address = some content ∧ Text.isUtf8 content = true ∧
        ClassFile.parse content = .ok f ∧ f.generate = content) ∧
    ∀ mode paths,
      let reached := paths.flatMap (visited s.disk)
      let total := ((formatPaths mode paths).run s).1
      (formatPaths mode paths).run s = (visitAll mode reached).run s ∧
      total.formatted + total.unchanged + total.errors = reached.length ∧
      total.errors = (visits mode reached s).countP fun v => !isClassFile v.1 v.2 := by
  refine ⟨?_, ?_⟩
  · intro args hcheck hoptions paths reached
    obtain ⟨mode, hmode, hexit⟩ := exit_run_check hcheck hoptions s
    have hdry : (mode.check || mode.diff) = true := by rw [hmode, Bool.true_or]
    obtain ⟨hunchanged, -, hsum⟩ := sum_tally (visits mode reached s)
    rw [← summary_visitAll] at hunchanged hsum
    rw [visits_of_dry hdry, List.countP_map] at hunchanged
    rw [visits_of_dry hdry, List.length_map] at hsum
    rw [hexit, run_formatPaths]
    -- without errors and without changes all files are unchanged
    have hcode : (if ((visitAll mode reached).run s).1.errors > 0 || ((visitAll mode reached).run s).1.formatted > 0
        then 1 else 0) = 0 ↔ reached.countP (isCanonical s.disk) = reached.length := by
      have hcount : ((visitAll mode reached).run s).1.unchanged = reached.countP (isCanonical s.disk) := hunchanged
      simp only [gt_iff_lt, Bool.or_eq_true, decide_eq_true_eq]
      split <;> omega
    exact hcode.trans (List.countP_eq_length.trans (forall₂_congr fun path _ => isCanonical_iff_file))
  · intro mode paths reached total
    obtain ⟨-, herrors, hsum⟩ := sum_tally (visits mode reached s)
    have hrun := run_formatPaths mode paths s
    have htotal : total = ((visits mode reached s).map fun v => tally v.1 v.2).sum := by
      rw [← summary_visitAll]
      exact congrArg Prod.fst hrun
    have hlength : (visits mode reached s).length = reached.length := by
      rw [← List.length_map Prod.snd, visits_snd]
    rw [htotal]
    exact ⟨hrun, hsum.trans hlength, herrors⟩

/-- A directory with one file in canonical form passes the check, also where the file is named again. -/
theorem check_passes_directory : ∃ s : Session, s.disk.root.files =
      [([utf8 "a", utf8 "F.php"], utf8 "<?php\n\n\nnamespace A;\n\n\nclass F\n\x7b\n\n\n\x7d")] ∧
    (pathArgs [utf8 "a", utf8 "--check", utf8 "a/F.php"]).flatMap (visited s.disk) =
      [utf8 "a/F.php", utf8 "a/F.php"] ∧
    ((run [utf8 "a", utf8 "--check", utf8 "a/F.php"]).run s).1 = 0 := by
  let s : Session := { disk := ⟨.dir (utf8 "a") (.file (utf8 "F.php")
    (utf8 "<?php\n\n\nnamespace A;\n\n\nclass F\n\x7b\n\n\n\x7d") .nil) .nil, []⟩ }
  have hvisited : visited s.disk (utf8 "a") = [utf8 "a/F.php"] := by decide +kernel
  have hloose : visited s.disk (utf8 "a/F.php") = [utf8 "a/F.php"] := by decide +kernel
  have hcanonical : isCanonical s.disk (utf8 "a/F.php") = true := by decide +kernel
  have hreached : (pathArgs [utf8 "a", utf8 "--check", utf8 "a/F.php"]).flatMap (visited s.disk) =
      [utf8 "a/F.php", utf8 "a/F.php"] := by
    have hpaths : pathArgs [utf8 "a", utf8 "--check", utf8 "a/F.php"] = [utf8 "a", utf8 "a/F.php"] := by decide
    rw [hpaths, List.flatMap_cons, List.flatMap_cons, hvisited, hloose]
    rfl
  refine ⟨s, rfl, hreached, ?_⟩
  refine ((check_is_exact s).1 [utf8 "a", utf8 "--check", utf8 "a/F.php"] (by decide) (by decide)).2 fun path hm => ?_
  have hpath : path = utf8 "a/F.php" := by
    have hm : path ∈ [utf8 "a/F.php", utf8 "a/F.php"] := hreached ▸ hm
    simpa using hm
  rw [hpath]
  exact isCanonical_iff_file.1 hcanonical

end Format

end PhpClass
