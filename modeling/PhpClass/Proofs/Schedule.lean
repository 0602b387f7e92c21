import PhpClass.Command.Parallel
import PhpClass.Proofs.FormatCount

/-!
# Formatting in any order

The files below a directory lead to different addresses, so a worker reads what was there in the beginning, no matter
who has written before. What it does then is therefore the same in every schedule: at each moment the disk is the one of
the beginning with the files of the settled workers formatted, and the summary counts those that are through
(`Format.Pool.Follows`). At the end this is what the visits leave behind, one after the other.

* `Format.schedule_does_not_matter`: the disk and the summary at the end of any schedule.
-/

namespace PhpClass

namespace Format

/-! ## What a run writes -/

/-- How often visits to paths write to an address. In a run that only checks or shows they do not. -/
def written (mode : Mode) (d : Disk) (paths : List Text) : List Text → Nat :=
  if mode.check || mode.diff then fun _ => 0 else hits d paths

theorem written_append (mode : Mode) (d : Disk) (xs ys : List Text) :
    written mode d (xs ++ ys) = fun address => written mode d xs address + written mode d ys address := by
  unfold written
  split
  · rfl
  · exact hits_append d xs ys

theorem written_perm (mode : Mode) (d : Disk) {xs ys : List Text} (h : xs.Perm ys) :
    written mode d xs = written mode d ys := by
  unfold written
  split
  · rfl
  · funext address
    exact h.countP_eq _

/-- Nothing is written where no path leads. -/
theorem written_eq_zero {mode : Mode} {d : Disk} {paths : List Text} {address : List Text}
    (h : ∀ path ∈ paths, d.resolve path ≠ .ok address) : written mode d paths address = 0 := by
  unfold written
  split
  · rfl
  · exact List.countP_eq_zero.2 fun path hm => by simpa using h path hm

theorem Formatted.written_eq {d e : Disk} {m : List Text → Nat} (h : Formatted d e m) (mode : Mode)
    (paths : List Text) : written mode e paths = written mode d paths := by
  unfold written
  rw [h.hits_eq]

theorem written_nil (mode : Mode) (d : Disk) : written mode d [] = fun _ => 0 := by
  unfold written
  split <;> rfl

theorem Mode.eq_of_not_dry {mode : Mode} (h : ¬(mode.check || mode.diff) = true) : mode = {} := by
  cases mode
  simp_all

theorem formatted_visit_written (mode : Mode) (path : Text) (s : Session) :
    Formatted s.disk (behind (visit mode path) s).disk (written mode s.disk [path]) := by
  unfold written
  split
  · next hdry =>
    rw [disk_visit_of_dry hdry]
    exact Formatted.refl s.disk
  · next hdry =>
    rw [Mode.eq_of_not_dry hdry]
    exact formatted_visit path s

theorem formatted_visitAll_written (mode : Mode) (paths : List Text) (s : Session) :
    Formatted s.disk (behind (visitAll mode paths) s).disk (written mode s.disk paths) := by
  unfold written
  split
  · next hdry =>
    rw [disk_visitAll_of_dry hdry]
    exact Formatted.refl s.disk
  · next hdry =>
    rw [Mode.eq_of_not_dry hdry]
    exact formatted_visitAll paths s

/-- What is read through a path that nothing has been written to. -/
theorem Formatted.read_eq {d e : Disk} {m : List Text → Nat} (h : Formatted d e m) {path : Text}
    (hkept : ∀ address, d.resolve path = .ok address → m address = 0) : e.read path = d.read path := by
  unfold Disk.read Disk.node
  rw [h.resolve_eq]
  cases hpath : d.resolve path with
  | error cause => rfl
  | ok address =>
    have hblank : (e.root.node? address).map Tree.blankNode = (d.root.node? address).map Tree.blankNode := by
      have hroot : e.root.blank = d.root.blank := congrArg Disk.root h.blank_eq
      rw [← Tree.node?_blank, hroot, Tree.node?_blank]
    have hfile : e.root.file? address = d.root.file? address := by
      rw [h.file?_eq, hkept address hpath, Function.iterate_zero, Option.map_id]
      rfl
    unfold Tree.file? at hfile
    simp only [bind, Except.bind]
    cases he : e.root.node? address with
    | none =>
      cases hd : d.root.node? address with
      | none => rfl
      | some node => simp [he, hd] at hblank
    | some node =>
      cases hd : d.root.node? address with
      | none => simp [he, hd] at hblank
      | some node' =>
        rw [he, hd] at hblank hfile
        cases node <;> cases node' <;> simp_all [Tree.blankNode, pure, Except.pure]

theorem Formatted.read_eq_of_not_mem {mode : Mode} {d e : Disk} {paths : List Text}
    (h : Formatted d e (written mode d paths)) {path : Text} (hnot : d.resolve path ∉ paths.map d.resolve) :
    e.read path = d.read path := by
  refine h.read_eq fun address hpath => written_eq_zero fun other hm hsame => hnot ?_
  exact List.mem_map.2 ⟨other, hm, hsame.trans hpath.symm⟩

/-- A disk and what has been done to its files determine the disk behind it. -/
theorem Formatted.unique {d e f : Disk} {m : List Text → Nat} (hwf : d.root.WellFormed) (he : Formatted d e m)
    (hf : Formatted d f m) : e = f := by
  have hblank : e.blank = f.blank := he.blank_eq.trans hf.blank_eq.symm
  have hroot : e.root.blank = f.root.blank := congrArg Disk.root hblank
  have hewf : e.root.WellFormed := by
    have hd : e.root.blank = d.root.blank := congrArg Disk.root he.blank_eq
    rw [← Tree.wellFormed_blank, hd, Tree.wellFormed_blank]
    exact hwf
  have hsame : e.root = f.root := Tree.eq_of_blank_eq hewf hroot fun address => by
    rw [he.file?_eq, hf.file?_eq]
  have hhere : e.here = f.here := by
    have hhere := congrArg Disk.here hblank
    exact hhere
  cases e
  cases f
  simp_all

/-! ## One worker -/

namespace Worker

/-- A worker with what it has found on the disk of the beginning. -/
def Faithful (mode : Mode) (d : Disk) (w : Worker) : Prop :=
  match w.progress with
  | .read content => content = d.read w.path
  | .settled result => result = (Verdict.ofContent w.path (d.read w.path)).result mode
  | _ => True

/-- The paths that a worker has settled. -/
def settled (w : Worker) : List Text :=
  match w.progress with
  | .settled _ | .counted => [w.path]
  | _ => []

theorem path_of_mem_settled {w : Worker} {path : Text} (h : path ∈ w.settled) : path = w.path := by
  unfold settled at h
  split at h
  · exact List.mem_singleton.1 h
  · exact List.mem_singleton.1 h
  · cases h

/-- What a worker has counted. -/
def count (d : Disk) (w : Worker) : Summary :=
  match w.progress with
  | .counted => tally d w.path
  | _ => 0

/-- A worker behind its turn. -/
def next (mode : Mode) (w : Worker) (s : Session) : Worker := { w with progress := ((w.turn mode).run s).1.1 }

/-- A worker whose file is as it was in the beginning does with it what is to be done, and touches no other file. -/
theorem turn_spec {mode : Mode} {d : Disk} {w : Worker} {s : Session} (hw : w.Faithful mode d)
    (hread : w.settled = [] → s.disk.read w.path = d.read w.path) :
    (w.next mode s).Faithful mode d ∧
      (∃ new, (w.next mode s).settled = w.settled ++ new ∧
        Formatted s.disk (behind (w.turn mode) s).disk (written mode s.disk new)) ∧
      (w.next mode s).count d = w.count d + ((w.turn mode).run s).1.2 := by
  have hstay : Formatted s.disk s.disk (written mode s.disk []) := by
    rw [written_nil]
    exact Formatted.refl s.disk
  obtain ⟨path, progress⟩ := w
  cases progress with
  | waiting =>
    refine ⟨?_, ⟨[], rfl, hstay⟩, (add_zero _).symm⟩
    exact hread rfl
  | read content =>
    -- the content that was read is the one that is there
    have hcontent : content = s.disk.read path := Eq.trans hw (hread rfl).symm
    have hresult : ((settle mode path content).run s).1 =
        (Verdict.ofContent path (s.disk.read path)).result mode := by
      rw [hcontent]
      exact result_formatFile mode path s
    have hdisk : (behind (settle mode path content) s).disk = (behind (visit mode path) s).disk := by
      rw [hcontent, disk_visit]
      rfl
    refine ⟨?_, ⟨[path], rfl, ?_⟩, (add_zero _).symm⟩
    · rw [hread rfl] at hresult
      exact hresult
    · have hwrite := formatted_visit_written mode path s
      rw [← hdisk] at hwrite
      exact hwrite
  | settled result =>
    have hsame : (behind (turn mode ⟨path, .settled result⟩) s).disk = s.disk := disk_record mode path result s
    have hcount : ((record mode path result).run s).1 = tally d path := by
      rw [summary_record, ← countOf_result mode]
      exact congrArg countOf hw
    refine ⟨trivial, ⟨[], rfl, ?_⟩, ?_⟩
    · rw [hsame]
      exact hstay
    · exact hcount.symm.trans (zero_add _).symm
  | counted => exact ⟨trivial, ⟨[], rfl, hstay⟩, (add_zero _).symm⟩

end Worker

/-! ## All workers -/

namespace Pool

/-- The paths that the workers have settled. -/
def settled (pool : Pool) : List Text := pool.workers.flatMap Worker.settled

/-- What a pool has done since the beginning, and how its disk has come to be. -/
structure Follows (mode : Mode) (d : Disk) (pool : Pool) (e : Disk) : Prop where
  formatted : Formatted d e (written mode d pool.settled)
  faithful : ∀ w ∈ pool.workers, w.Faithful mode d
  summary_eq : pool.summary = (pool.workers.map (Worker.count d)).sum

theorem follows_start (mode : Mode) (d : Disk) (paths : List Text) : (start paths).Follows mode d d where
  formatted := by
    have hnone : (start paths).settled = [] := by
      simp [settled, start, Worker.settled]
    rw [hnone, written_nil]
    exact Formatted.refl d
  faithful := by
    intro w hm
    obtain ⟨path, -, rfl⟩ := List.mem_map.1 hm
    trivial
  summary_eq := by
    have hzero : (start paths).workers.map (Worker.count d) = paths.map fun _ => (0 : Summary) := List.map_map
    rw [hzero, List.map_const', List.sum_replicate, nsmul_zero]
    rfl

/-- The files of the workers lie at different addresses. -/
def Apart (d : Disk) (pool : Pool) : Prop := ((pool.workers.map Worker.path).map d.resolve).Nodup

theorem run_turn_of_none {mode : Mode} {pool : Pool} {i : Nat} (h : pool.workers[i]? = none) (s : Session) :
    (pool.turn mode i).run s = (pool, s) := by
  unfold turn
  rw [h]
  rfl

theorem run_turn_of_some {mode : Mode} {pool : Pool} {i : Nat} {w : Worker} (h : pool.workers[i]? = some w)
    (s : Session) : (pool.turn mode i).run s =
      ({ workers := pool.workers.set i (w.next mode s), summary := pool.summary + ((w.turn mode).run s).1.2 },
        behind (w.turn mode) s) := by
  unfold turn
  rw [h]
  rfl

/-- A worker and those in front of and behind it. -/
theorem exists_split {workers : List Worker} {i : Nat} {w : Worker} (h : workers[i]? = some w) :
    ∃ before after, workers = before ++ w :: after ∧ ∀ w', workers.set i w' = before ++ w' :: after := by
  obtain ⟨hi, hw⟩ := List.getElem?_eq_some_iff.1 h
  refine ⟨workers.take i, workers.drop (i + 1), ?_, fun w' => ?_⟩
  · rw [← hw, List.cons_getElem_drop_succ, List.take_append_drop]
  · exact List.set_eq_take_cons_drop w' hi

/-- A worker that has not settled its file finds it as it was in the beginning. -/
theorem Follows.read_eq {mode : Mode} {d e : Disk} {pool : Pool} (h : pool.Follows mode d e) (hapart : pool.Apart d)
    {before after : List Worker} {w : Worker} (hsplit : pool.workers = before ++ w :: after) (hw : w.settled = []) :
    e.read w.path = d.read w.path := by
  refine h.formatted.read_eq_of_not_mem fun hm => ?_
  unfold Apart at hapart
  rw [List.map_map, hsplit, List.map_append, List.map_cons, List.nodup_middle, List.nodup_cons,
    ← List.map_append] at hapart
  rw [settled, hsplit, List.flatMap_append, List.flatMap_cons, hw, List.nil_append, ← List.flatMap_append] at hm
  obtain ⟨path, hpath, hsame⟩ := List.mem_map.1 hm
  obtain ⟨other, hother, hpath⟩ := List.mem_flatMap.1 hpath
  rw [Worker.path_of_mem_settled hpath] at hsame
  exact hapart.1 (List.mem_map.2 ⟨other, hother, hsame⟩)

/-- What a turn keeps. -/
theorem Follows.turn {mode : Mode} {d : Disk} {pool : Pool} {s : Session} (h : pool.Follows mode d s.disk)
    (hapart : pool.Apart d) (i : Nat) :
    ((pool.turn mode i).run s).1.Follows mode d ((pool.turn mode i).run s).2.disk := by
  cases hw : pool.workers[i]? with
  | none =>
    rw [run_turn_of_none hw]
    exact h
  | some w =>
    obtain ⟨before, after, hsplit, hset⟩ := exists_split hw
    have hmem : w ∈ pool.workers := by
      rw [hsplit]
      exact List.mem_append_right before List.mem_cons_self
    obtain ⟨hfaithful, ⟨new, hsettled, hdisk⟩, hcount⟩ :=
      Worker.turn_spec (h.faithful w hmem) (h.read_eq hapart hsplit)
    rw [run_turn_of_some hw, hset]
    refine ⟨?_, ?_, ?_⟩
    · have hboth := h.formatted.trans hdisk
      rw [h.formatted.written_eq, ← written_append] at hboth
      have hperm : ((before ++ w :: after).flatMap Worker.settled ++ new).Perm
          ((before ++ w.next mode s :: after).flatMap Worker.settled) := by
        rw [List.flatMap_append, List.flatMap_append, List.flatMap_cons, List.flatMap_cons, hsettled,
          List.append_assoc, List.append_assoc, List.append_assoc]
        exact (List.perm_append_comm.append_left _).append_left _
      rw [settled, hsplit, written_perm mode d hperm] at hboth
      exact hboth
    · intro w' hm
      rcases List.mem_append.1 hm with hm | hm
      · exact h.faithful w' (hsplit ▸ List.mem_append_left _ hm)
      · rcases List.mem_cons.1 hm with rfl | hm
        · exact hfaithful
        · exact h.faithful w' (hsplit ▸ List.mem_append_right before (List.mem_cons_of_mem w hm))
    · have hsum := h.summary_eq
      rw [hsplit, List.map_append, List.map_cons, List.sum_append, List.sum_cons] at hsum
      dsimp only
      rw [hsum, List.map_append, List.map_cons, List.sum_append, List.sum_cons, hcount, add_assoc,
        add_right_comm (w.count d)]

theorem paths_turn (mode : Mode) (pool : Pool) (i : Nat) (s : Session) :
    ((pool.turn mode i).run s).1.workers.map Worker.path = pool.workers.map Worker.path := by
  cases hw : pool.workers[i]? with
  | none => rw [run_turn_of_none hw]
  | some w =>
    obtain ⟨before, after, hsplit, hset⟩ := exists_split hw
    rw [run_turn_of_some hw, hset, hsplit, List.map_append, List.map_append]
    rfl

theorem run_cons (mode : Mode) (i : Nat) (schedule : List Nat) (pool : Pool) (s : Session) :
    (run mode (i :: schedule) pool).run s =
      (run mode schedule ((pool.turn mode i).run s).1).run (behind (pool.turn mode i) s) := rfl

theorem paths_run (mode : Mode) (schedule : List Nat) (pool : Pool) (s : Session) :
    ((run mode schedule pool).run s).1.workers.map Worker.path = pool.workers.map Worker.path := by
  induction schedule generalizing pool s with
  | nil => rfl
  | cons i schedule ih => rw [run_cons, ih, paths_turn]

/-- What a whole schedule keeps. -/
theorem Follows.run {mode : Mode} {d : Disk} {pool : Pool} {s : Session} (h : pool.Follows mode d s.disk)
    (hapart : pool.Apart d) (schedule : List Nat) :
    ((Pool.run mode schedule pool).run s).1.Follows mode d ((Pool.run mode schedule pool).run s).2.disk := by
  induction schedule generalizing pool s with
  | nil => exact h
  | cons i schedule ih => 
    have hnext : ((pool.turn mode i).run s).1.Apart d := by
      rw [Apart, paths_turn]
      exact hapart
    exact ih (h.turn hapart i) hnext

/-! ## Turns -/

end Pool

/-- How many turns a worker has taken that count. -/
def Progress.turns : Progress → Nat
  | .waiting => 0
  | .read _ => 1
  | .settled _ => 2
  | .counted => 3

theorem Progress.turns_le (progress : Progress) : progress.turns ≤ 3 := by
  cases progress <;> simp [turns]

theorem Progress.eq_counted {progress : Progress} (h : 3 ≤ progress.turns) : progress = .counted := by
  cases progress with
  | counted => rfl
  | _ => simp [turns] at h

theorem Worker.turns_next (mode : Mode) (w : Worker) (s : Session) :
    (w.next mode s).progress.turns = min 3 (w.progress.turns + 1) := by
  obtain ⟨path, progress⟩ := w
  cases progress <;> rfl

namespace Pool

theorem turns_turn (mode : Mode) {pool : Pool} {j : Nat} {w : Worker} (h : pool.workers[j]? = some w) (i : Nat)
    (s : Session) : ∃ w', ((pool.turn mode i).run s).1.workers[j]? = some w' ∧
      w'.progress.turns = min 3 (w.progress.turns + if i = j then 1 else 0) := by
  by_cases hij : i = j
  · subst hij
    have hi : i < pool.workers.length := (List.getElem?_eq_some_iff.1 h).1
    rw [run_turn_of_some h, if_pos rfl]
    exact ⟨w.next mode s, List.getElem?_set_self hi, w.turns_next mode s⟩
  · have hother : ((pool.turn mode i).run s).1.workers[j]? = some w := by
      cases hw : pool.workers[i]? with
      | none =>
        rw [run_turn_of_none hw]
        exact h
      | some other =>
        rw [run_turn_of_some hw]
        exact (List.getElem?_set_ne hij).trans h
    have hle := w.progress.turns_le
    exact ⟨w, hother, by rw [if_neg hij]; omega⟩

theorem turns_run (mode : Mode) {pool : Pool} {j : Nat} {w : Worker} (h : pool.workers[j]? = some w)
    (schedule : List Nat) (s : Session) : ∃ w', ((run mode schedule pool).run s).1.workers[j]? = some w' ∧
      w'.progress.turns = min 3 (w.progress.turns + schedule.count j) := by
  induction schedule generalizing pool w s with
  | nil =>
    have hle := w.progress.turns_le
    exact ⟨w, h, by rw [List.count_nil]; omega⟩
  | cons i schedule ih =>
    obtain ⟨w', hw', hturns⟩ := turns_turn mode h i s
    obtain ⟨w'', hw'', hturns'⟩ := ih hw' (behind (pool.turn mode i) s)
    refine ⟨w'', hw'', ?_⟩
    rw [hturns', hturns, List.count_cons]
    simp only [beq_iff_eq]
    split <;> omega

/-- Three turns for each worker are enough. -/
theorem isDone_run (mode : Mode) (paths : List Text) {schedule : List Nat}
    (h : ∀ i < paths.length, 3 ≤ schedule.count i) (s : Session) :
    ((run mode schedule (start paths)).run s).1.IsDone := by
  intro w hm
  obtain ⟨i, hi⟩ := List.mem_iff_getElem?.1 hm
  have hlength : i < paths.length := by
    have hpaths := congrArg List.length (paths_run mode schedule (start paths) s)
    have hbound := (List.getElem?_eq_some_iff.1 hi).1
    rw [List.length_map, List.length_map, start, List.length_map] at hpaths
    rwa [← hpaths]
  have hstart : (start paths).workers[i]? = some { path := paths[i] } := by
    simp [start, hlength]
  obtain ⟨w', hw', hturns⟩ := turns_run mode hstart schedule s
  obtain rfl : w = w' := Option.some.inj (hi.symm.trans hw')
  have hcount := h i hlength
  exact Progress.eq_counted (by omega)

end Pool

/-! ## One after the other -/

/-- Visits to different files count what was there in the beginning. -/
theorem summary_visitAll_of_nodup (mode : Mode) {d : Disk} {paths before : List Text} {s : Session}
    (hdisk : Formatted d s.disk (written mode d before)) (hnodup : ((before ++ paths).map d.resolve).Nodup) :
    ((visitAll mode paths).run s).1 = (paths.map (tally d)).sum := by
  induction paths generalizing s before with
  | nil => rfl
  | cons path paths ih =>
    have hcons : ((visitAll mode (path :: paths)).run s).1 =
        ((visit mode path).run s).1 + ((visitAll mode paths).run (behind (visit mode path) s)).1 := rfl
    have hread : s.disk.read path = d.read path := by
      refine hdisk.read_eq_of_not_mem fun hm => ?_
      rw [List.map_append, List.map_cons, List.nodup_middle, List.nodup_cons] at hnodup
      exact hnodup.1 (List.mem_append_left _ hm)
    have hnext : Formatted d (behind (visit mode path) s).disk (written mode d (before ++ [path])) := by
      have hboth := hdisk.trans (formatted_visit_written mode path s)
      rwa [hdisk.written_eq, ← written_append] at hboth
    rw [hcons, summary_visit, tally_congr hread, ih hnext (by rwa [List.append_assoc]), List.map_cons, List.sum_cons]

theorem Pool.IsDone.settled_eq {pool : Pool} (h : pool.IsDone) : pool.settled = pool.workers.map Worker.path := by
  have hsettled : ∀ w ∈ pool.workers, w.settled = [w.path] := by
    intro w hm
    rw [Worker.settled, h w hm]
  rw [Pool.settled, List.flatMap_congr hsettled]
  exact List.flatMap_pure_eq_map Worker.path pool.workers

theorem Pool.IsDone.count_eq {pool : Pool} (h : pool.IsDone) (d : Disk) :
    pool.workers.map (Worker.count d) = (pool.workers.map Worker.path).map (tally d) := by
  rw [List.map_map]
  refine List.map_congr_left fun w hm => ?_
  rw [Worker.count, h w hm]
  rfl

/-- **The order in which the workers take their turns does not matter.** However the turns of the workers on a directory
are mixed, if each worker gets its three, then all are done, the disk is the one that is left behind when the files are
formatted one after the other, and so is the summary. -/
theorem schedule_does_not_matter (s : Session) (hwf : s.disk.root.WellFormed) (mode : Mode) (path : Text)
    (paths : List Text) (hpaths : Files.under s.disk path = .ok paths) (schedule : List Nat)
    (hturns : ∀ i < paths.length, 3 ≤ schedule.count i) :
    let pool := ((formatDirectoryInTurns mode path schedule).run s).1
    pool.workers.map Worker.path = paths ∧ pool.IsDone ∧
      (((formatDirectoryInTurns mode path schedule).run s).2).disk = (((formatDirectory mode path).run s).2).disk ∧
      pool.summary = ((formatDirectory mode path).run s).1 := by
  have hinTurns : (formatDirectoryInTurns mode path schedule).run s =
      (Pool.run mode schedule (Pool.start paths)).run s := by
    rw [formatDirectoryInTurns, run_disk_bind, hpaths]
  have hinOrder : (formatDirectory mode path).run s = (visitAll mode paths).run s := by
    rw [formatDirectory, run_disk_bind, hpaths]
  have hnodup := nodup_resolve_visited hwf path
  rw [visited_of_under hpaths] at hnodup
  have hstart : ((Pool.start paths).workers.map Worker.path) = paths := by
    simp [Pool.start, Function.comp_def]
  have hfollows := (Pool.follows_start mode s.disk paths).run (by rw [Pool.Apart, hstart]; exact hnodup) schedule
  have hworkers := (Pool.paths_run mode schedule (Pool.start paths) s).trans hstart
  have hdone := Pool.isDone_run mode paths hturns s
  have hdisk := hfollows.formatted
  rw [hdone.settled_eq, hworkers] at hdisk
  rw [hinTurns, hinOrder]
  refine ⟨hworkers, hdone, hdisk.unique hwf (formatted_visitAll_written mode paths s), ?_⟩
  have hcount : ((visitAll mode paths).run s).1 = (paths.map (tally s.disk)).sum := by
    have hnone : Formatted s.disk s.disk (written mode s.disk []) := by
      rw [written_nil]
      exact Formatted.refl s.disk
    exact summary_visitAll_of_nodup mode hnone hnodup
  rw [hfollows.summary_eq, hdone.count_eq, hworkers, hcount]

/-- Two workers, of which each waits for the other in the middle of its work. -/
theorem two_workers_mixed : ∃ s : Session, s.disk.root.WellFormed ∧
    s.disk.root.files = [([utf8 "a", utf8 "F.php"], utf8 "<?php namespace A; class F \x7b \x7d"),
      ([utf8 "a", utf8 "G.php"], utf8 "<?php")] ∧
    Files.under s.disk (utf8 "a") = .ok [utf8 "a/F.php", utf8 "a/G.php"] ∧
    (∀ i < 2, 3 ≤ [0, 1, 1, 0, 0, 1].count i) ∧
    let pool := ((formatDirectoryInTurns {} (utf8 "a") [0, 1, 1, 0, 0, 1]).run s).1
    pool.IsDone ∧ (((formatDirectoryInTurns {} (utf8 "a") [0, 1, 1, 0, 0, 1]).run s).2).disk =
        (((formatDirectory {} (utf8 "a")).run s).2).disk ∧
      pool.summary = { formatted := 1, errors := 1 } := by
  let s : Session := { disk := ⟨.dir (utf8 "a") (.file (utf8 "F.php") (utf8 "<?php namespace A; class F \x7b \x7d")
    (.file (utf8 "G.php") (utf8 "<?php") .nil)) .nil, []⟩ }
  have hwf : s.disk.root.WellFormed := by decide +kernel
  have hfound : Files.found (.file (utf8 "F.php") (utf8 "<?php namespace A; class F \x7b \x7d")
      (.file (utf8 "G.php") (utf8 "<?php") .nil)) = [[utf8 "F.php"], [utf8 "G.php"]] :=
    List.mergeSort_of_pairwise (by decide +kernel)
  have hpaths : Files.under s.disk (utf8 "a") = .ok [utf8 "a/F.php", utf8 "a/G.php"] := by
    have hentries : Files.under s.disk (utf8 "a") = .ok ((Files.found (.file (utf8 "F.php")
        (utf8 "<?php namespace A; class F \x7b \x7d") (.file (utf8 "G.php") (utf8 "<?php") .nil))).map
          fun address => address.foldl Files.below (utf8 "a")) := rfl
    rw [hentries, hfound]
    decide +kernel
  have hturns : ∀ i < 2, 3 ≤ [0, 1, 1, 0, 0, 1].count i := by decide
  have hsummary : ((formatDirectory {} (utf8 "a")).run s).1 = { formatted := 1, errors := 1 } := by
    rw [formatDirectory, run_disk_bind, hpaths]
    decide +kernel
  obtain ⟨-, hdone, hdisk, hsame⟩ := schedule_does_not_matter s hwf {} (utf8 "a") _ hpaths [0, 1, 1, 0, 0, 1] hturns
  exact ⟨s, hwf, rfl, hpaths, hturns, hdone, hdisk, hsame.trans hsummary⟩

end Format

end PhpClass
