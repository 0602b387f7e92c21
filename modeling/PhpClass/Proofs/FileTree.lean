import PhpClass.Files.Walk

/-!
# Trees of files under writing

Writing a file changes its content and nothing else. So the tree with all contents left out
(`Tree.blank`) is the same before and after, and with it everything that only asks where a path leads.

* `Tree.file?_overwrite`: what is read behind a write.
* `Disk.resolve_blank`, `Files.under_blank`: where paths lead, and which files are found, depends on the
  names alone.
-/

namespace PhpClass

namespace Tree

/-! ## Contents and names -/

/-- The tree with empty files. -/
def blank : Tree → Tree
  | nil => nil
  | file name _ rest => file name [] rest.blank
  | dir name inside rest => dir name inside.blank rest.blank

/-- What remains of an entry in the tree with empty files. -/
def blankNode : Node → Node
  | .file _ => .file []
  | .dir entries => .dir entries.blank

/-- The content of the file at an address. -/
def file? (t : Tree) (address : List Text) : Option Text :=
  match t.node? address with
  | some (.file content) => some content
  | _ => none

theorem child?_blank (t : Tree) (name : Text) : t.blank.child? name = (t.child? name).map blankNode := by
  induction t with
  | nil => rfl
  | file n content rest ih =>
    by_cases h : n = name
    · simp [blank, child?, h, blankNode]
    · simpa [blank, child?, h] using ih
  | dir n inside rest _ ih =>
    by_cases h : n = name
    · simp [blank, child?, h, blankNode]
    · simpa [blank, child?, h] using ih

theorem node?_blank (t : Tree) (address : List Text) :
    t.blank.node? address = (t.node? address).map blankNode := by
  induction address generalizing t with
  | nil => rfl
  | cons name names ih =>
    simp only [node?, child?_blank]
    cases h : t.child? name with
    | none => rfl
    | some node =>
      cases node with
      | dir inside => exact ih inside
      | file content =>
        by_cases hn : names = [] <;> simp [hn, blankNode]

/-! ## Writing -/

theorem blank_overwrite (t : Tree) (content : Text) (address : List Text) :
    (t.overwrite content address).blank = t.blank := by
  induction t generalizing address with
  | nil => cases address <;> rfl
  | file n old rest ih =>
    rw [overwrite]
    split
    · rfl
    · rw [blank, ih, blank]
  | dir n inside rest ihInside ih =>
    cases address with
    | nil => rfl
    | cons name names =>
      rw [overwrite]
      split
      · rw [blank, ihInside, blank]
      · rw [blank, ih, blank]

/-! The content at an address, entry by entry. -/

@[simp] theorem file?_root (t : Tree) : t.file? [] = none := rfl

@[simp] theorem nil_file? (address : List Text) : nil.file? address = none := by
  cases address <;> rfl

theorem file_file? (n content : Text) (rest : Tree) (name : Text) (names : List Text) :
    (file n content rest).file? (name :: names) =
      if n = name then if names = [] then some content else none else rest.file? (name :: names) := by
  unfold file?
  rw [node?, node?, child?]
  by_cases hn : n = name
  · by_cases hnames : names = [] <;> simp [hn, hnames]
  · simp [hn]

theorem dir_file? (n : Text) (inside rest : Tree) (name : Text) (names : List Text) :
    (dir n inside rest).file? (name :: names) =
      if n = name then inside.file? names else rest.file? (name :: names) := by
  unfold file?
  rw [node?, node?, child?]
  by_cases hn : n = name <;> simp [hn]

/-- Behind a write the file has the new content, and every other file has its own. -/
theorem file?_overwrite (t : Tree) (content : Text) (address other : List Text) :
    (t.overwrite content address).file? other =
      if other = address then (t.file? address).map fun _ => content else t.file? other := by
  induction t generalizing address other with
  | nil =>
    rw [overwrite]
    simp
  | file n old rest ih =>
    rw [overwrite]
    cases other with
    | nil =>
      by_cases h : [] = address
      · simp [← h]
      · simp [h]
    | cons name names =>
      by_cases haddress : address = [n]
      · subst haddress
        rw [if_pos rfl, file_file?, file_file?, file_file?]
        by_cases hn : n = name
        · by_cases hnames : names = [] <;> simp [hn, hnames]
        · simp [hn, Ne.symm hn]
      · rw [if_neg haddress, file_file?, file_file?, ih]
        by_cases hn : n = name
        · subst hn
          by_cases hother : n :: names = address
          · subst hother
            have hnames : names ≠ [] := fun h => haddress (by rw [h])
            simp [file_file?, hnames]
          · simp [hother]
        · rw [if_neg hn, if_neg hn]
          split
          · next h => rw [← h, file_file?, if_neg hn]
          · rfl
  | dir n inside rest ihInside ih =>
    cases address with
    | nil =>
      have hsame : (dir n inside rest).overwrite content [] = dir n inside rest := rfl
      rw [hsame]
      split
      · next h => rw [h]; rfl
      · rfl
    | cons a as =>
      rw [overwrite]
      cases other with
      | nil => simp
      | cons name names =>
        by_cases ha : n = a
        · subst ha
          rw [if_pos rfl, dir_file?, dir_file?, dir_file?, if_pos rfl, ihInside]
          by_cases hn : n = name
          · subst hn
            simp
          · simp [hn, Ne.symm hn]
        · rw [if_neg ha, dir_file?, dir_file?, dir_file?, if_neg ha, ih]
          by_cases hn : n = name
          · subst hn
            simp [ha]
          · simp [hn]

/-- An address below an address. -/
theorem node?_append {t : Tree} {base : List Text} {inside : Tree} (h : t.node? base = some (.dir inside))
    (address : List Text) : t.node? (base ++ address) = inside.node? address := by
  induction base generalizing t with
  | nil => cases h; rfl
  | cons name names ih =>
    rw [node?] at h
    rw [List.cons_append, node?]
    cases hentry : t.child? name with
    | none => simp [hentry] at h
    | some node =>
      cases node with
      | dir entries =>
        simp only [hentry] at h
        exact ih h
      | file content =>
        simp only [hentry] at h
        split at h <;> cases h

end Tree

/-! ## Where paths lead -/

namespace Disk

/-- The disk with empty files. -/
def blank (d : Disk) : Disk := { d with root := d.root.blank }

theorem step_blank (d : Disk) (address : List Text) (name : Text) :
    d.blank.step address name = d.step address name := by
  unfold step blank
  simp only [Tree.node?_blank]
  cases d.root.node? address with
  | none => rfl
  | some node =>
    cases node with
    | file content => rfl
    | dir entries => simp [Tree.blankNode, Tree.child?_blank]

theorem follow_blank (d : Disk) (address names : List Text) :
    d.blank.follow address names = d.follow address names := by
  induction names generalizing address with
  | nil => rfl
  | cons name names ih =>
    simp only [follow, step_blank, ih]

theorem resolve_blank (d : Disk) (path : Text) : d.blank.resolve path = d.resolve path := by
  cases path with
  | nil => rfl
  | cons b path => exact follow_blank d _ _

theorem node_blank (d : Disk) (path : Text) : d.blank.node path = (d.node path).map Tree.blankNode := by
  unfold node
  rw [resolve_blank]
  cases d.resolve path with
  | error e => rfl
  | ok address =>
    have hnode := Tree.node?_blank d.root address
    simp only [blank, bind, Except.bind, hnode]
    cases d.root.node? address <;> rfl

theorem isDir_blank (d : Disk) (path : Text) : d.blank.isDir path = d.isDir path := by
  unfold isDir
  rw [node_blank]
  cases d.node path with
  | error e => rfl
  | ok node => cases node <;> rfl

end Disk

namespace Files

theorem listed_blank (t : Tree) : listed t.blank = listed t := by
  induction t with
  | nil => rfl
  | file name content rest ih => simp only [Tree.blank, listed, ih]
  | dir name inside rest ihInside ih => simp only [Tree.blank, listed, ihInside, ih]

theorem under_blank (d : Disk) (path : Text) : under d.blank path = under d path := by
  unfold under Disk.entries
  rw [Disk.node_blank]
  cases d.node path with
  | error e => rfl
  | ok node =>
    cases node with
    | file content => rfl
    | dir entries =>
      have hfound : found entries.blank = found entries := by rw [found, listed_blank, found]
      exact congrArg (fun f => Except.ok (f.map fun address => address.foldl below path)) hfound

end Files

end PhpClass
