import Mathlib.Data.List.Nodup
import PhpClass.Proofs.FileTree

/-!
# Finding files in well-formed trees

In a well-formed tree each directory has at most one entry with a name, and a name is one that a path can
name. Then the path of a file that is found below a directory leads to that file
(`Files.resolve_foldl_below`, `Files.under_eq_ok`), and no file is found twice (`Files.nodup_found`). The names and the
contents of the files determine such a tree (`Tree.eq_of_blank_eq`).
-/

namespace PhpClass

/-! ## Well-formed trees -/

/-- A name that an entry of a directory can have. -/
structure IsEntryName (name : Text) : Prop where
  not_empty : name ≠ []
  not_here : name ≠ utf8 "."
  not_up : name ≠ utf8 ".."
  slash_not_mem : ascii '/' ∉ name

namespace Tree

/-- The names of the entries. -/
def names : Tree → List Text
  | nil => []
  | file name _ rest => name :: rest.names
  | dir name _ rest => name :: rest.names

/-- The entries of each directory have different names, and no name that would lead elsewhere. -/
def WellFormed : Tree → Prop
  | nil => True
  | file name _ rest => IsEntryName name ∧ name ∉ rest.names ∧ rest.WellFormed
  | dir name inside rest => IsEntryName name ∧ name ∉ rest.names ∧ inside.WellFormed ∧ rest.WellFormed

instance decidableIsEntryName (name : Text) : Decidable (IsEntryName name) :=
  decidable_of_iff (name ≠ [] ∧ name ≠ utf8 "." ∧ name ≠ utf8 ".." ∧ ascii '/' ∉ name)
    ⟨fun ⟨h₁, h₂, h₃, h₄⟩ => ⟨h₁, h₂, h₃, h₄⟩, fun h => ⟨h.1, h.2, h.3, h.4⟩⟩

instance decidableWellFormed : (t : Tree) → Decidable t.WellFormed
  | nil => inferInstanceAs (Decidable True)
  | file name _ rest =>
    have := decidableWellFormed rest
    inferInstanceAs (Decidable (IsEntryName name ∧ name ∉ rest.names ∧ rest.WellFormed))
  | dir name inside rest =>
    have := decidableWellFormed inside
    have := decidableWellFormed rest
    inferInstanceAs (Decidable (IsEntryName name ∧ name ∉ rest.names ∧ inside.WellFormed ∧ rest.WellFormed))

theorem mem_names_of_child? {t : Tree} {name : Text} {node : Node} (h : t.child? name = some node) :
    name ∈ t.names := by
  induction t with
  | nil => cases h
  | file n content rest ih =>
    by_cases hn : n = name
    · rw [names, hn]
      exact List.mem_cons_self
    · rw [child?, if_neg hn] at h
      exact List.mem_cons_of_mem n (ih h)
  | dir n inside rest _ ih =>
    by_cases hn : n = name
    · rw [names, hn]
      exact List.mem_cons_self
    · rw [child?, if_neg hn] at h
      exact List.mem_cons_of_mem n (ih h)

theorem WellFormed.isEntryName {t : Tree} (h : t.WellFormed) {name : Text} (hm : name ∈ t.names) : IsEntryName name := by
  induction t with
  | nil => cases hm
  | file n content rest ih =>
    rcases List.mem_cons.1 hm with rfl | hm
    · exact h.1
    · exact ih h.2.2 hm
  | dir n inside rest _ ih =>
    rcases List.mem_cons.1 hm with rfl | hm
    · exact h.1
    · exact ih h.2.2.2 hm

theorem WellFormed.inside {t : Tree} (h : t.WellFormed) {name : Text} {inside : Tree}
    (hentry : t.child? name = some (.dir inside)) : inside.WellFormed := by
  induction t with
  | nil => cases hentry
  | file n content rest ih =>
    rw [child?] at hentry
    split at hentry
    · cases hentry
    · exact ih h.2.2 hentry
  | dir n inside rest _ ih =>
    rw [child?] at hentry
    split at hentry
    · cases hentry
      exact h.2.2.1
    · exact ih h.2.2.2 hentry

theorem WellFormed.node? {t : Tree} (h : t.WellFormed) {address : List Text} {inside : Tree}
    (hnode : t.node? address = some (.dir inside)) : inside.WellFormed := by
  induction address generalizing t with
  | nil => cases hnode; exact h
  | cons name names ih =>
    rw [Tree.node?] at hnode
    split at hnode
    · next entries hentry => exact ih (h.inside hentry) hnode
    · split at hnode <;> cases hnode
    · cases hnode

/-! Names and contents make a tree. -/

theorem names_blank (t : Tree) : t.blank.names = t.names := by
  induction t with
  | nil => rfl
  | file n content rest ih => rw [blank, names, names, ih]
  | dir n inside rest _ ih => rw [blank, names, names, ih]

theorem wellFormed_blank {t : Tree} : t.blank.WellFormed ↔ t.WellFormed := by
  induction t with
  | nil => exact Iff.rfl
  | file n content rest ih => rw [blank, WellFormed, WellFormed, names_blank, ih]
  | dir n inside rest ihInside ih => rw [blank, WellFormed, WellFormed, names_blank, ihInside, ih]

theorem file?_eq_none {t : Tree} {name : Text} (h : name ∉ t.names) (names : List Text) :
    t.file? (name :: names) = none := by
  have hentry : t.child? name = none := by
    cases hentry : t.child? name with
    | none => rfl
    | some node => exact absurd (mem_names_of_child? hentry) h
  simp only [file?, node?, hentry]

/-- What is behind an entry is at the addresses that do not begin with its name. -/
theorem file?_rest_eq {t u t' u' : Tree} {name : Text} (ht : name ∉ t.names) (hu : name ∉ u.names)
    (hfile : ∀ address, t'.file? address = u'.file? address)
    (hrest : ∀ other names, name ≠ other → t'.file? (other :: names) = t.file? (other :: names) ∧
      u'.file? (other :: names) = u.file? (other :: names)) (address : List Text) :
    t.file? address = u.file? address := by
  cases address with
  | nil => rfl
  | cons other names =>
    by_cases hname : name = other
    · rw [← hname, file?_eq_none ht, file?_eq_none hu]
    · rw [← (hrest other names hname).1, hfile, (hrest other names hname).2]

/-- Trees are the same when they have the same names and the same contents. -/
theorem eq_of_blank_eq {t u : Tree} (ht : t.WellFormed) (hblank : t.blank = u.blank)
    (hfile : ∀ address, t.file? address = u.file? address) : t = u := by
  have hu : u.WellFormed := wellFormed_blank.1 (hblank ▸ wellFormed_blank.2 ht)
  induction t generalizing u with
  | nil =>
    cases u with
    | nil => rfl
    | file n content rest => cases hblank
    | dir n inside rest => cases hblank
  | file n content rest ih =>
    cases u with
    | nil => cases hblank
    | dir n' inside rest' => cases hblank
    | file n' content' rest' =>
      obtain ⟨rfl, -, hrestBlank⟩ := Tree.file.inj hblank
      have hcontent : content = content' := by simpa [file_file?] using hfile [n]
      have hrest : rest = rest' := by
        refine ih ht.2.2 hrestBlank (file?_rest_eq ht.2.1 hu.2.1 hfile fun other names hne => ?_) hu.2.2
        rw [file_file?, file_file?, if_neg hne, if_neg hne]
        exact ⟨rfl, rfl⟩
      rw [hcontent, hrest]
  | dir n inside rest ihInside ih =>
    cases u with
    | nil => cases hblank
    | file n' content' rest' => cases hblank
    | dir n' inside' rest' =>
      obtain ⟨rfl, hinsideBlank, hrestBlank⟩ := Tree.dir.inj hblank
      have hinside : inside = inside' := by
        refine ihInside ht.2.2.1 hinsideBlank (fun address => ?_) hu.2.2.1
        have := hfile (n :: address)
        rwa [dir_file?, dir_file?, if_pos rfl, if_pos rfl] at this
      have hrest : rest = rest' := by
        refine ih ht.2.2.2 hrestBlank (file?_rest_eq ht.2.1 hu.2.1 hfile fun other names hne => ?_) hu.2.2.2
        rw [dir_file?, dir_file?, if_neg hne, if_neg hne]
        exact ⟨rfl, rfl⟩
      rw [hinside, hrest]

end Tree

/-! ## Found files -/

namespace Files

open PhpClass.Tree

theorem exists_name_of_listed {t : Tree} {address : List Text} (h : address ∈ listed t) :
    ∃ name ∈ t.names, ∃ names, address = name :: names := by
  induction t generalizing address with
  | nil => cases h
  | file n content rest ih =>
    have hrest : address ∈ listed rest → ∃ name ∈ (file n content rest).names, ∃ names, address = name :: names := by
      intro h
      obtain ⟨name, hm, hnames⟩ := ih h
      exact ⟨name, List.mem_cons_of_mem n hm, hnames⟩
    rw [listed] at h
    split at h
    · rcases List.mem_cons.1 h with rfl | h
      · exact ⟨n, List.mem_cons_self, [], rfl⟩
      · exact hrest h
    · exact hrest h
  | dir n inside rest _ ih =>
    have hrest : address ∈ listed rest → ∃ name ∈ (dir n inside rest).names, ∃ names, address = name :: names := by
      intro h
      obtain ⟨name, hm, hnames⟩ := ih h
      exact ⟨name, List.mem_cons_of_mem n hm, hnames⟩
    rw [listed] at h
    split at h
    · rcases List.mem_append.1 h with h | h
      · obtain ⟨names, -, rfl⟩ := List.mem_map.1 h
        exact ⟨n, List.mem_cons_self, names, rfl⟩
      · exact hrest h
    · exact hrest h

/-- What is listed is a file. -/
theorem file?_of_listed {t : Tree} (ht : t.WellFormed) {address : List Text} (h : address ∈ listed t) :
    ∃ content, t.file? address = some content := by
  induction t generalizing address with
  | nil => cases h
  | file n content rest ih =>
    obtain ⟨-, hn, hrest⟩ := ht
    have hlater : address ∈ listed rest → ∃ c, (file n content rest).file? address = some c := by
      intro h
      obtain ⟨name, hm, names, rfl⟩ := exists_name_of_listed h
      obtain ⟨c, hc⟩ := ih hrest h
      have hne : n ≠ name := fun he => hn (he ▸ hm)
      exact ⟨c, by rw [file_file?, if_neg hne, hc]⟩
    rw [listed] at h
    split at h
    · rcases List.mem_cons.1 h with rfl | h
      · exact ⟨content, by simp [file_file?]⟩
      · exact hlater h
    · exact hlater h
  | dir n inside rest ihInside ih =>
    obtain ⟨-, hn, hinside, hrest⟩ := ht
    have hlater : address ∈ listed rest → ∃ c, (dir n inside rest).file? address = some c := by
      intro h
      obtain ⟨name, hm, names, rfl⟩ := exists_name_of_listed h
      obtain ⟨c, hc⟩ := ih hrest h
      have hne : n ≠ name := fun he => hn (he ▸ hm)
      exact ⟨c, by rw [dir_file?, if_neg hne, hc]⟩
    rw [listed] at h
    split at h
    · rcases List.mem_append.1 h with h | h
      · obtain ⟨names, hm, rfl⟩ := List.mem_map.1 h
        obtain ⟨c, hc⟩ := ihInside hinside hm
        exact ⟨c, by rw [dir_file?, if_pos rfl, hc]⟩
      · exact hlater h
    · exact hlater h

theorem nodup_listed {t : Tree} (ht : t.WellFormed) : (listed t).Nodup := by
  induction t with
  | nil => exact List.nodup_nil
  | file n content rest ih =>
    obtain ⟨-, hn, hrest⟩ := ht
    rw [listed]
    split
    · refine List.nodup_cons.2 ⟨fun h => ?_, ih hrest⟩
      obtain ⟨name, hm, names, he⟩ := exists_name_of_listed h
      exact hn ((List.cons.inj he).1 ▸ hm)
    · exact ih hrest
  | dir n inside rest ihInside ih =>
    obtain ⟨-, hn, hinside, hrest⟩ := ht
    rw [listed]
    split
    · refine List.nodup_append.2 ⟨?_, ih hrest, ?_⟩
      · exact List.Nodup.map (fun _ _ h => (List.cons.inj h).2) (ihInside hinside)
      · intro a ha b hb he
        obtain ⟨names, -, rfl⟩ := List.mem_map.1 ha
        obtain ⟨name, hm, names', he'⟩ := exists_name_of_listed hb
        exact hn ((List.cons.inj (he.trans he')).1 ▸ hm)
    · exact ih hrest

theorem mem_found {t : Tree} {address : List Text} : address ∈ found t ↔ address ∈ listed t :=
  List.mem_mergeSort

theorem nodup_found {t : Tree} (ht : t.WellFormed) : (found t).Nodup :=
  (List.mergeSort_perm _ _).nodup_iff.2 (nodup_listed ht)

end Files

/-! ## Paths below a path -/

namespace Disk

theorem node_eq_ok {d : Disk} {path : Text} {node : Node} :
    d.node path = .ok node ↔ ∃ address, d.resolve path = .ok address ∧ d.root.node? address = some node := by
  unfold Disk.node
  cases d.resolve path with
  | error e => simp [bind, Except.bind]
  | ok address =>
    cases h : d.root.node? address with
    | none => simp [bind, Except.bind, h]
    | some n => simp [bind, Except.bind, h, pure, Except.pure]

theorem isDir_iff {d : Disk} {path : Text} :
    d.isDir path = true ↔
      ∃ address entries, d.resolve path = .ok address ∧ d.root.node? address = some (.dir entries) := by
  unfold isDir
  constructor
  · intro h
    split at h
    · next entries hnode =>
      obtain ⟨address, hpath, hentries⟩ := node_eq_ok.1 hnode
      exact ⟨address, entries, hpath, hentries⟩
    · cases h
  · rintro ⟨address, entries, hpath, hentries⟩
    rw [node_eq_ok.2 ⟨address, hpath, hentries⟩]

/-- What is read is the content of a file, and text. -/
theorem read_eq_ok {d : Disk} {path content : Text} :
    d.read path = .ok content ↔
      (∃ address, d.resolve path = .ok address ∧ d.root.file? address = some content) ∧
        Text.isUtf8 content = true := by
  unfold read Tree.file?
  constructor
  · intro h
    cases hnode : d.node path with
    | error e => simp [hnode, bind, Except.bind] at h
    | ok node =>
      obtain ⟨address, hpath, hentry⟩ := node_eq_ok.1 hnode
      cases node with
      | dir entries => simp [hnode, bind, Except.bind] at h
      | file c =>
        simp only [hnode, bind, Except.bind] at h
        split at h
        · next hutf8 =>
          cases h
          exact ⟨⟨address, hpath, by rw [hentry]⟩, hutf8⟩
        · cases h
  · rintro ⟨⟨address, hpath, hfile⟩, hutf8⟩
    split at hfile
    · next c hentry =>
      cases hfile
      rw [node_eq_ok.2 ⟨address, hpath, hentry⟩]
      simp [bind, Except.bind, hutf8, pure, Except.pure]
    · cases hfile

theorem follow_append (d : Disk) (address xs ys : List Text) :
    d.follow address (xs ++ ys) = (d.follow address xs).bind fun next => d.follow next ys := by
  induction xs generalizing address with
  | nil => rfl
  | cons x xs ih =>
    rw [List.cons_append, follow, follow]
    cases d.step address x with
    | error e => rfl
    | ok next => exact ih next

/-- A name leads from a directory to its entry. -/
theorem step_entry {d : Disk} {address : List Text} {entries : Tree} {name : Text}
    (h : d.root.node? address = some (.dir entries)) (hname : IsEntryName name)
    (hentry : (entries.child? name).isSome = true) : d.step address name = .ok (address ++ [name]) := by
  unfold step
  rw [h]
  simp [hname.not_empty, hname.not_here, hname.not_up, hentry]

theorem step_empty {d : Disk} {address next : List Text} (h : d.step address [] = .ok next) : next = address := by
  unfold step at h
  split at h
  · simpa using h.symm
  · cases h
  · cases h

theorem follow_empty {d : Disk} {address next : List Text} (h : d.follow next [[]] = .ok address) :
    next = address := by
  rw [follow] at h
  cases hstep : d.step next [] with
  | error e =>
    rw [hstep] at h
    cases h
  | ok a =>
    rw [hstep] at h
    rw [← step_empty hstep]
    exact Except.ok.inj h

/-- A name below a path leads on from where the path leads. -/
theorem resolve_below {d : Disk} {path : Text} {address : List Text} {entries : Tree} {name : Text}
    (hpath : d.resolve path = .ok address) (h : d.root.node? address = some (.dir entries))
    (hname : IsEntryName name) (hentry : (entries.child? name).isSome = true) :
    d.resolve (Files.below path name) = .ok (address ++ [name]) := by
  cases path with
  | nil => cases hpath
  | cons b path =>
    have hresolve : ∀ q, d.resolve (b :: q) = d.follow (if b = ascii '/' then [] else d.here) (names (b :: q)) :=
      fun _ => rfl
    have hlast : d.follow address [name] = .ok (address ++ [name]) := by
      simp only [follow, step_entry h hname hentry]
      rfl
    have hsingle : names name = [name] := List.splitOn_eq_singleton hname.slash_not_mem
    unfold Files.below
    split
    · next hslash =>
      -- The last name of the path is empty, and the new name comes in its place.
      have hend : (b :: path).getLast? = some (ascii '/') := by simpa using hslash
      obtain ⟨front, hfront⟩ := List.getLast?_eq_some_iff.1 hend
      have hnames : names (b :: path) = names front ++ [[]] := by
        rw [hfront]
        exact List.splitOn_append_cons_self front []
      have hbelow : names (b :: (path ++ name)) = names front ++ [name] := by
        rw [← List.cons_append, hfront, List.append_assoc, ← hsingle]
        exact List.splitOn_append_cons_self front name
      rw [hresolve, hnames, follow_append] at hpath
      rw [List.cons_append, hresolve, hbelow, follow_append]
      cases hfollow : d.follow (if b = ascii '/' then [] else d.here) (names front) with
      | error e =>
        rw [hfollow] at hpath
        cases hpath
      | ok next =>
        rw [hfollow] at hpath
        have hnext : next = address := follow_empty hpath
        rw [hnext]
        exact hlast
    · have hbelow : names (b :: (path ++ ascii '/' :: name)) = names (b :: path) ++ [name] := by
        rw [← List.cons_append, ← hsingle]
        exact List.splitOn_append_cons_self (b :: path) name
      rw [List.cons_append, hresolve, hbelow, follow_append, ← hresolve, hpath]
      exact hlast

end Disk

namespace Files

/-- The path of what is at an address below a path. -/
theorem resolve_foldl_below {d : Disk} {path : Text} {base : List Text} {entries : Tree}
    (hpath : d.resolve path = .ok base) (h : d.root.node? base = some (.dir entries)) (hwf : entries.WellFormed)
    {address : List Text} {content : Text} (hfile : entries.file? address = some content) :
    d.resolve (address.foldl below path) = .ok (base ++ address) := by
  induction address generalizing path base entries with
  | nil => cases hfile
  | cons name names ih =>
    cases hentry : entries.child? name with
    | none => simp [Tree.file?, Tree.node?, hentry] at hfile
    | some node =>
      have hname := hwf.isEntryName (Tree.mem_names_of_child? hentry)
      have hstep := Disk.resolve_below hpath h hname (by rw [hentry]; rfl)
      cases node with
      | file c =>
        have hnames : names = [] := by
          by_cases hn : names = []
          · exact hn
          · simp [Tree.file?, Tree.node?, hentry, hn] at hfile
        rw [hnames]
        exact hstep
      | dir inside =>
        have hinside : d.root.node? (base ++ [name]) = some (.dir inside) := by
          rw [Tree.node?_append h, Tree.node?, hentry]
          rfl
        have hrest : inside.file? names = some content := by
          rw [← hfile]
          simp only [Tree.file?, Tree.node?, hentry]
        have hgo := ih hstep hinside (hwf.inside hentry) hrest
        rw [List.append_assoc] at hgo
        exact hgo

theorem under_eq {d : Disk} {path : Text} {base : List Text} {entries : Tree} (hpath : d.resolve path = .ok base)
    (h : d.root.node? base = some (.dir entries)) :
    under d path = .ok ((found entries).map fun address => address.foldl below path) := by
  have hentries : d.entries path = .ok entries := by
    unfold Disk.entries
    rw [Disk.node_eq_ok.2 ⟨base, hpath, h⟩]
    rfl
  unfold under
  rw [hentries]
  rfl

/-- The paths of the files that are found below a directory lead to these files. -/
theorem under_eq_ok {d : Disk} {path : Text} {base : List Text} {entries : Tree} (hwf : d.root.WellFormed)
    (hpath : d.resolve path = .ok base) (h : d.root.node? base = some (.dir entries)) :
    ∃ paths, under d path = .ok paths ∧
      paths.map d.resolve = (found entries).map fun address => .ok (base ++ address) := by
  refine ⟨(found entries).map fun address => address.foldl below path, under_eq hpath h, ?_⟩
  rw [List.map_map]
  refine List.map_congr_left fun address hm => ?_
  have hinside := hwf.node? h
  obtain ⟨content, hfile⟩ := file?_of_listed hinside (mem_found.1 hm)
  exact resolve_foldl_below hpath h hinside hfile

end Files

end PhpClass
