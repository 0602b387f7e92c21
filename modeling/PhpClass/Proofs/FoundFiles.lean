import Mathlib.Data.List.Basic
import PhpClass.Proofs.FileWalk

/-!
# Which class files are found

Below a directory exactly those files are found whose extension is `php` and that no hidden name and no `vendor` leads
to (`Files.mem_listed_iff`). The name of a directory counts for nothing else, so one that ends in `.php` is searched
like any other and is not found itself. The paths are found in the strict order of their components
(`Files.pairwise_found`, `Files.components_foldl_below`), which leaves no choice: the order in which the entries of
directories are listed does not matter (`Files.found_eq_of_relisted`).
-/

namespace PhpClass

open Text

namespace Tree

/-! ## Entries in another order -/

/-- An entry in front of others. -/
def cons (name : Text) : Node → Tree → Tree
  | .file content, rest => file name content rest
  | .dir inside, rest => dir name inside rest

/-- The same entries, in directories that list them in another order. -/
inductive Relisted : Tree → Tree → Prop
  | nil : Relisted nil nil
  | file {name content : Text} {rest rest' : Tree} (h : Relisted rest rest') :
      Relisted (file name content rest) (file name content rest')
  | dir {name : Text} {inside inside' rest rest' : Tree} (hinside : Relisted inside inside')
      (h : Relisted rest rest') : Relisted (dir name inside rest) (dir name inside' rest')
  | swap (name name' : Text) (node node' : Node) (rest : Tree) :
      Relisted (cons name node (cons name' node' rest)) (cons name' node' (cons name node rest))
  | trans {t u v : Tree} (h : Relisted t u) (h' : Relisted u v) : Relisted t v

/-- The names that lead to an entry are names of entries. -/
theorem WellFormed.isEntryName_of_mem {t : Tree} (h : t.WellFormed) {address : List Text} {node : Node}
    (hnode : t.node? address = some node) : ∀ name ∈ address, IsEntryName name := by
  induction address generalizing t with
  | nil => exact List.forall_mem_nil _
  | cons name names ih =>
    rw [Tree.node?] at hnode
    cases hentry : t.child? name with
    | none => simp [hentry] at hnode
    | some entry =>
      have hname := h.isEntryName (mem_names_of_child? hentry)
      rw [hentry] at hnode
      cases entry with
      | dir inside => exact List.forall_mem_cons.2 ⟨hname, ih (h.inside hentry) hnode⟩
      | file content =>
        dsimp only at hnode
        split at hnode
        · next hnames => simpa [hnames] using hname
        · cases hnode

theorem node?_of_file? {t : Tree} {address : List Text} {content : Text} (h : t.file? address = some content) :
    t.node? address = some (.file content) := by
  unfold file? at h
  split at h
  · next hnode =>
    cases h
    exact hnode
  · cases h

end Tree

namespace Files

open PhpClass.Tree

/-! ## Names -/

/-- The name of a hidden entry. A name that is no text is never taken for one. -/
def IsHidden (name : Text) : Prop := isUtf8 name = true ∧ utf8 "." <+: name

/-- The name has an extension: this follows the last dot, and something stands in front of that dot. -/
def HasExtension (extension name : Text) : Prop :=
  ∃ stem : Text, stem ≠ [] ∧ name = stem ++ ascii '.' :: extension ∧ ascii '.' ∉ extension

theorem isVisited_iff {name : Text} : isVisited name = true ↔ ¬IsHidden name ∧ name ≠ utf8 "vendor" := by
  have hvendor : isUtf8 (utf8 "vendor") = true := by decide +kernel
  unfold isVisited IsHidden
  rw [← startsWith_iff]
  cases htext : isUtf8 name with
  | true => cases startsWith (utf8 ".") name <;> simp
  | false =>
    have hne : name ≠ utf8 "vendor" := by
      rintro rfl
      rw [hvendor] at htext
      cases htext
    simpa using hne

theorem isPhp_iff {name : Text} : isPhp name = true ↔ HasExtension (utf8 "php") name := by
  have hdot : ascii '.' ∉ utf8 "php" := by decide +kernel
  have hreverse : ∀ stem, name.reverse = (utf8 ".php").reverse ++ stem ↔
      name = stem.reverse ++ ascii '.' :: utf8 "php" := by
    intro stem
    rw [← List.reverse_inj, List.reverse_reverse, List.reverse_append, List.reverse_reverse]
    rfl
  unfold isPhp HasExtension
  constructor
  · intro h
    split at h
    · next stem hstem =>
      refine ⟨stem.reverse, by simpa using h, (hreverse stem).1 (after?_eq_some.1 hstem), hdot⟩
    · cases h
  · rintro ⟨stem, hne, hname, -⟩
    have hstem : after? (utf8 ".php").reverse name.reverse = some stem.reverse := by
      rw [after?_eq_some, hreverse, List.reverse_reverse]
      exact hname
    rw [hstem]
    simpa using hne

/-! ## Addresses -/

/-- Every name that leads there is visited, and the last one is that of a class file. -/
def IsSought (address : List Text) : Prop :=
  (∀ name ∈ address, isVisited name = true) ∧ ∃ name ∈ address.getLast?, isPhp name = true

theorem isSought_singleton {name : Text} : IsSought [name] ↔ isVisited name = true ∧ isPhp name = true := by
  simp [IsSought]

theorem isSought_cons {name : Text} {names : List Text} (h : names ≠ []) :
    IsSought (name :: names) ↔ isVisited name = true ∧ IsSought names := by
  unfold IsSought
  rw [List.forall_mem_cons, and_assoc, List.getLast?_cons_of_ne_nil h]

theorem mem_listed_file {n content : Text} {rest : Tree} {address : List Text} :
    address ∈ listed (.file n content rest) ↔
      (address = [n] ∧ isVisited n = true ∧ isPhp n = true) ∨ address ∈ listed rest := by
  rw [listed]
  split <;> simp_all

theorem mem_listed_dir {n : Text} {inside rest : Tree} {address : List Text} :
    address ∈ listed (.dir n inside rest) ↔
      (isVisited n = true ∧ ∃ names ∈ listed inside, address = n :: names) ∨ address ∈ listed rest := by
  rw [listed]
  split
  · next hvisit =>
    rw [List.mem_append, List.mem_map]
    simp only [hvisit, true_and, eq_comm]
  · next hvisit => simp [hvisit]

theorem not_mem_listed {t : Tree} {name : Text} (h : name ∉ t.names) (names : List Text) :
    name :: names ∉ listed t := by
  intro hmem
  obtain ⟨other, hother, names', he⟩ := exists_name_of_listed hmem
  exact h ((List.cons.inj he).1 ▸ hother)

theorem nil_not_mem_listed (t : Tree) : [] ∉ listed t := by
  intro hmem
  obtain ⟨_, -, _, he⟩ := exists_name_of_listed hmem
  cases he

/-- The files that are listed are those whose addresses are sought. -/
theorem mem_listed_iff {t : Tree} (ht : t.WellFormed) {address : List Text} :
    address ∈ listed t ↔ (∃ content, t.file? address = some content) ∧ IsSought address := by
  induction t generalizing address with
  | nil => simp [listed]
  | file n content rest ih =>
    obtain ⟨-, hn, hrest⟩ := ht
    cases address with
    | nil => simp [nil_not_mem_listed]
    | cons name names =>
      rw [mem_listed_file, file_file?]
      by_cases hname : n = name
      · subst hname
        by_cases hnames : names = []
        · simp [hnames, not_mem_listed hn, isSought_singleton]
        · simp [hnames, not_mem_listed hn]
      · simp [hname, Ne.symm hname, ih hrest]
  | dir n inside rest ihInside ih =>
    obtain ⟨-, hn, hinside, hrest⟩ := ht
    cases address with
    | nil => simp [nil_not_mem_listed]
    | cons name names =>
      rw [mem_listed_dir, dir_file?]
      by_cases hname : n = name
      · subst hname
        by_cases hnames : names = []
        · simp [hnames, not_mem_listed hn, nil_not_mem_listed]
        · simp [not_mem_listed hn, ihInside hinside, isSought_cons hnames]
          tauto
      · simp [hname, Ne.symm hname, ih hrest]

/-! ## Order -/

theorem pairwise_le_found (t : Tree) : (found t).Pairwise fun a b => (compare a b).isLE = true := by
  apply List.pairwise_mergeSort
  · intro a b c
    exact Std.TransCmp.isLE_trans
  · intro a b
    rw [Bool.or_eq_true, or_iff_not_imp_left]
    intro h
    rw [Std.OrientedCmp.lt_of_not_isLE h]
    rfl

/-- The addresses of the files that are found increase. -/
theorem pairwise_found {t : Tree} (ht : t.WellFormed) : (found t).Pairwise fun a b => compare a b = .lt := by
  refine (pairwise_le_found t).imp₂ ?_ (nodup_found ht)
  intro a b hle hne
  rcases Ordering.isLE_iff_eq_lt_or_eq_eq.1 hle with hlt | heq
  · exact hlt
  · exact absurd (Std.LawfulEqCmp.eq_of_compare heq) hne

theorem listed_cons (name : Text) (node : Node) (rest : Tree) :
    listed (cons name node rest) = listed (cons name node nil) ++ listed rest := by
  cases node with
  | file content =>
    simp only [cons, listed]
    split <;> rfl
  | dir inside =>
    simp only [cons, listed]
    split <;> simp

theorem perm_listed {t u : Tree} (h : t.Relisted u) : (listed t).Perm (listed u) := by
  induction h with
  | nil => exact .refl _
  | @file name content rest rest' _ ih =>
    simp only [listed]
    split
    · exact ih.cons _
    · exact ih
  | @dir name inside inside' rest rest' _ _ ihInside ih =>
    simp only [listed]
    split
    · exact (ihInside.map _).append ih
    · exact ih
  | swap name name' node node' rest =>
    rw [listed_cons name node, listed_cons name' node', listed_cons name' node' (cons name node rest),
      listed_cons name node rest]
    exact List.perm_append_comm_assoc _ _ _
  | trans _ _ ih ih' => exact ih.trans ih'

/-- What is found are the addresses that are listed, in their order. -/
theorem found_eq {t : Tree} {addresses : List (List Text)} (hperm : addresses.Perm (listed t))
    (hle : addresses.Pairwise fun a b => (compare a b).isLE = true) : found t = addresses := by
  refine List.Perm.eq_of_pairwise ?_ (pairwise_le_found t) hle ((List.mergeSort_perm _ _).trans hperm.symm)
  intro a b _ _ hab hba
  exact Std.LawfulEqCmp.eq_of_compare (Std.OrientedCmp.isLE_antisymm hab hba)

/-- What is found does not depend on the order of the listings. -/
theorem found_eq_of_relisted {t u : Tree} (h : t.Relisted u) : found t = found u :=
  found_eq ((List.mergeSort_perm _ _).trans (perm_listed h).symm) (pairwise_le_found u)

/-! ## Paths -/

/-- The components of a path: a slash or a `.` in front, and then the names, without those that are empty or `.`. -/
def components (path : Text) : List Text :=
  (if path.head? = some (ascii '/') then [utf8 "/"]
    else if (Disk.names path).head? = some (utf8 ".") then [utf8 "."] else []) ++
  (Disk.names path).filter fun name => name ≠ [] ∧ name ≠ utf8 "."

theorem components_below {path name : Text} (hpath : path ≠ []) (hname : IsEntryName name) :
    components (below path name) = components path ++ [name] := by
  have hsingle : Disk.names name = [name] := List.splitOn_eq_singleton hname.slash_not_mem
  have hkept : ([name].filter fun name => name ≠ [] ∧ name ≠ utf8 ".") = [name] := by
    simp [hname.not_empty, hname.not_here]
  unfold below
  split
  · next hslash =>
    -- the last name of the path is empty
    have hend : path.getLast? = some (ascii '/') := by simpa [hpath] using hslash
    obtain ⟨front, rfl⟩ := List.getLast?_eq_some_iff.1 hend
    have hnames : Disk.names (front ++ [ascii '/']) = Disk.names front ++ [[]] :=
      List.splitOn_append_cons_self front []
    have hbelow : Disk.names (front ++ [ascii '/'] ++ name) = Disk.names front ++ [name] := by
      rw [List.append_assoc, ← hsingle]
      exact List.splitOn_append_cons_self front name
    have hne : Disk.names front ≠ [] := List.splitOn_ne_nil _ front
    unfold components
    rw [hnames, hbelow, List.head?_append_of_ne_nil _ hpath, List.head?_append_of_ne_nil _ hne,
      List.head?_append_of_ne_nil _ hne, List.filter_append, List.filter_append, hkept]
    simp
  · have hbelow : Disk.names (path ++ ascii '/' :: name) = Disk.names path ++ [name] := by
      rw [← hsingle]
      exact List.splitOn_append_cons_self path name
    have hne : Disk.names path ≠ [] := List.splitOn_ne_nil _ path
    unfold components
    rw [hbelow, List.head?_append_of_ne_nil _ hpath, List.head?_append_of_ne_nil _ hne, List.filter_append, hkept,
      List.append_assoc]

theorem below_ne_nil {path name : Text} (h : path ≠ []) : below path name ≠ [] := by
  unfold below
  split <;> simp [h]

/-- The names of an address come behind the components of the path. -/
theorem components_foldl_below {path : Text} {address : List Text} (hpath : path ≠ [])
    (h : ∀ name ∈ address, IsEntryName name) :
    components (address.foldl below path) = components path ++ address := by
  induction address generalizing path with
  | nil => exact (List.append_nil _).symm
  | cons name names ih =>
    obtain ⟨hname, hnames⟩ := List.forall_mem_cons.1 h
    rw [List.foldl_cons, ih (below_ne_nil hpath) hnames, components_below hpath hname, List.append_assoc]
    rfl

theorem compare_append (front a b : List Text) : compare (front ++ a) (front ++ b) = compare a b := by
  induction front with
  | nil => rfl
  | cons name front ih =>
    have hsame : compare name name = .eq := Std.ReflCmp.compare_self
    have hcons : compare (name :: (front ++ a)) (name :: (front ++ b)) =
        (compare name name).then (compare (front ++ a) (front ++ b)) := List.compareLex_cons_cons
    rw [List.cons_append, List.cons_append, hcons, hsame, ih]
    rfl

/-! ## What is found below a path -/

/-- These are the paths of the class files below a path, in the order of their components. -/
structure FindsExactly (entries : Tree) (path : Text) (paths : List Text) : Prop where
  /-- They are the paths of the files with the extension, below no hidden name and no `vendor`. -/
  mem_iff : ∀ p, p ∈ paths ↔ ∃ address content, p = address.foldl below path ∧
    entries.file? address = some content ∧ (∀ name ∈ address, ¬IsHidden name ∧ name ≠ utf8 "vendor") ∧
      ∃ name ∈ address.getLast?, HasExtension (utf8 "php") name
  /-- No directory is among them, whatever its name. -/
  not_mem_of_dir : ∀ address inside, entries.node? address = some (.dir inside) → address.foldl below path ∉ paths
  increasing : paths.Pairwise fun p q => compare (components p) (components q) = .lt
  nodup : paths.Nodup

theorem mem_found_below {entries : Tree} (ht : entries.WellFormed) {path p : Text} :
    p ∈ (found entries).map (fun address => address.foldl below path) ↔
      ∃ address content, p = address.foldl below path ∧ entries.file? address = some content ∧
        (∀ name ∈ address, ¬IsHidden name ∧ name ≠ utf8 "vendor") ∧
          ∃ name ∈ address.getLast?, HasExtension (utf8 "php") name := by
  simp only [List.mem_map, mem_found, mem_listed_iff ht, IsSought, isVisited_iff, isPhp_iff]
  constructor
  · rintro ⟨address, ⟨⟨content, hfile⟩, hnames, hlast⟩, rfl⟩
    exact ⟨address, content, rfl, hfile, hnames, hlast⟩
  · rintro ⟨address, content, rfl, hfile, hnames, hlast⟩
    exact ⟨address, ⟨⟨content, hfile⟩, hnames, hlast⟩, rfl⟩

theorem components_of_node? {entries : Tree} (ht : entries.WellFormed) {path : Text} (hpath : path ≠ [])
    {address : List Text} {node : Node} (hnode : entries.node? address = some node) :
    components (address.foldl below path) = components path ++ address :=
  components_foldl_below hpath (ht.isEntryName_of_mem hnode)

theorem increasing_found_below {entries : Tree} (ht : entries.WellFormed) {path : Text} (hpath : path ≠ []) :
    ((found entries).map fun address => address.foldl below path).Pairwise
      fun p q => compare (components p) (components q) = .lt := by
  rw [List.pairwise_map]
  refine (pairwise_found ht).imp_of_mem ?_
  intro a b ha hb hlt
  obtain ⟨_, hfile⟩ := file?_of_listed ht (mem_found.1 ha)
  obtain ⟨_, hfile'⟩ := file?_of_listed ht (mem_found.1 hb)
  rw [components_of_node? ht hpath (node?_of_file? hfile), components_of_node? ht hpath (node?_of_file? hfile'),
    compare_append]
  exact hlt

theorem findsExactly_found {entries : Tree} (ht : entries.WellFormed) {path : Text} (hpath : path ≠ []) :
    FindsExactly entries path ((found entries).map fun address => address.foldl below path) where
  mem_iff _ := mem_found_below ht
  not_mem_of_dir := by
    intro address inside hnode hfound
    obtain ⟨address', content, hsame, hfile, -⟩ := (mem_found_below ht).1 hfound
    have hnode' := node?_of_file? hfile
    -- the components tell the addresses apart
    have heq := congrArg components hsame
    rw [components_of_node? ht hpath hnode, components_of_node? ht hpath hnode'] at heq
    rw [List.append_cancel_left heq, hnode'] at hnode
    cases hnode
  increasing := increasing_found_below ht hpath
  nodup := by
    refine (increasing_found_below ht hpath).imp ?_
    rintro p q hlt rfl
    have hsame : compare (components p) (components p) = .eq := Std.ReflCmp.compare_self
    rw [hsame] at hlt
    cases hlt

/-- **Below a directory exactly the class files are found**, each once and in the order of their paths, whatever the
name of the directory and the order of the listings. -/
theorem under_exact {d : Disk} {path : Text} {base : List Text} {entries : Tree} (hwf : d.root.WellFormed)
    (hpath : d.resolve path = .ok base) (hdir : d.root.node? base = some (.dir entries)) :
    ∃ paths, under d path = .ok paths ∧ FindsExactly entries path paths ∧
      (∀ address content, entries.file? address = some content →
        d.resolve (address.foldl below path) = .ok (base ++ address)) ∧
      ∀ (d' : Disk) (base' : List Text) (entries' : Tree), d'.resolve path = .ok base' →
        d'.root.node? base' = some (.dir entries') → entries.Relisted entries' → under d' path = .ok paths := by
  have ht := hwf.node? hdir
  have hne : path ≠ [] := by
    rintro rfl
    cases hpath
  refine ⟨_, under_eq hpath hdir, findsExactly_found ht hne, ?_, ?_⟩
  · intro address content hfile
    exact resolve_foldl_below hpath hdir ht hfile
  · intro d' base' entries' hpath' hdir' hrelisted
    rw [under_eq hpath' hdir', found_eq_of_relisted hrelisted]

/-- The directory itself may be called `vendor`, and one below it may end in `.php`. -/
theorem under_exact_vendor : ∃ (d : Disk) (base : List Text) (entries : Tree), d.root.WellFormed ∧
    d.resolve (utf8 "vendor") = .ok base ∧ d.root.node? base = some (.dir entries) ∧
    ∃ paths, under d (utf8 "vendor") = .ok paths ∧ FindsExactly entries (utf8 "vendor") paths ∧
      paths = [utf8 "vendor/a/b.php", utf8 "vendor/a-b.php/d.php", utf8 "vendor/a.php"] := by
  let hidden : Tree := .dir (utf8 ".git") (.file (utf8 "c.php") [] .nil) (.file (utf8 ".php") [] .nil)
  let entries : Tree := .file (utf8 "a.php") [] (.dir (utf8 "a-b.php") (.file (utf8 "d.php") [] .nil)
    (.dir (utf8 "a") (.file (utf8 "b.php") [] (.file (utf8 "php") [] .nil)) hidden))
  let d : Disk := ⟨.dir (utf8 "vendor") entries .nil, []⟩
  have hwf : d.root.WellFormed := by decide +kernel
  have hpath : d.resolve (utf8 "vendor") = .ok [utf8 "vendor"] := by decide +kernel
  have hdir : d.root.node? [utf8 "vendor"] = some (.dir entries) := by decide +kernel
  obtain ⟨paths, hunder, hexact, -⟩ := under_exact hwf hpath hdir
  have hfound : found entries =
      [[utf8 "a", utf8 "b.php"], [utf8 "a-b.php", utf8 "d.php"], [utf8 "a.php"]] :=
    found_eq (by decide +kernel) (by decide +kernel)
  have hpaths := hunder.symm.trans (under_eq hpath hdir)
  rw [hfound] at hpaths
  refine ⟨d, _, entries, hwf, hpath, hdir, paths, hunder, hexact, (Except.ok.inj hpaths).trans ?_⟩
  decide +kernel

end Files

end PhpClass
