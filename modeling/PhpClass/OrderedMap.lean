import Std.Data.ExtTreeMap
import PhpClass.Text.Basic

/-!
# Ordered maps

A map from texts to values that keeps the order of insertion. The entries are a list; an index holds the
slot of each key in it, so that a look-up does not walk the list. A key that is present cannot be
inserted again.

The condition on the index says that it holds exactly the slots of the entries. It follows that no two
entries have the same key (`key_injective`), and that the entries alone determine a map (`ext`).
-/

namespace PhpClass

/-- A key that was inserted twice. -/
structure DuplicateKey where
  key : Text
  deriving DecidableEq, Repr

def DuplicateKey.message (e : DuplicateKey) : Text :=
  utf8 "duplicate key `" ++ e.key ++ utf8 "`"

/-- Entries in order of insertion, with the slot of each key. -/
structure OrderedMap (V : Type) where
  entries : List (Text × V)
  index : Std.ExtTreeMap Text Nat
  index_iff : ∀ (key : Text) (slot : Nat),
    index[key]? = some slot ↔ entries[slot]?.map Prod.fst = some key

namespace OrderedMap

variable {V W : Type}

/-! ## Operations -/

/-- The map without entries. -/
def empty : OrderedMap V where
  entries := []
  index := ∅
  index_iff := by simp

instance : EmptyCollection (OrderedMap V) := ⟨empty⟩

instance : Inhabited (OrderedMap V) := ⟨empty⟩

/-- The slot of a key. -/
def slot? (m : OrderedMap V) (key : Text) : Option Nat := m.index[key]?

/-- The value under a key. -/
def get? (m : OrderedMap V) (key : Text) : Option V :=
  (m.slot? key).bind fun slot => m.entries[slot]?.map Prod.snd

/-- Whether a key is present. -/
def contains (m : OrderedMap V) (key : Text) : Bool := (m.slot? key).isSome

/-- The keys in order. -/
def keys (m : OrderedMap V) : List Text := m.entries.map Prod.fst

/-- The values in order. -/
def values (m : OrderedMap V) : List V := m.entries.map Prod.snd

/-- The number of entries. -/
def size (m : OrderedMap V) : Nat := m.entries.length

/-- Whether there are no entries. -/
def isEmpty (m : OrderedMap V) : Bool := m.entries.isEmpty

/-- Appends an entry, unless its key is present. -/
def insert (m : OrderedMap V) (key : Text) (value : V) : Except DuplicateKey (OrderedMap V) :=
  if h : m.slot? key = none then
    .ok {
      entries := m.entries ++ [(key, value)]
      index := m.index.insert key m.entries.length
      index_iff := by
        intro k slot
        have hk := m.index_iff k slot
        have hkey := m.index_iff key slot
        simp only [slot?] at h
        simp only [Std.ExtTreeMap.getElem?_insert, Std.LawfulEqCmp.compare_eq_iff_eq,
          List.getElem?_append]
        grind
    }
  else .error ⟨key⟩

/-- Appends an entry, and leaves the map alone if its key is present. -/
def insertNew (m : OrderedMap V) (key : Text) (value : V) : OrderedMap V :=
  (m.insert key value).toOption.getD m

/-- The map with these entries, of which the first of each key counts. -/
def ofList (entries : List (Text × V)) : OrderedMap V :=
  entries.foldl (fun m e => m.insertNew e.1 e.2) empty

/-- Changes the value under a key. -/
def modify (m : OrderedMap V) (key : Text) (f : V → V) : OrderedMap V :=
  match m.slot? key with
  | none => m
  | some slot => {
      entries := m.entries.modify slot fun e => (e.1, f e.2)
      index := m.index
      index_iff := by
        intro k i
        rw [m.index_iff k i, List.getElem?_modify]
        by_cases h : slot = i <;> simp [h, Option.map_map, Function.comp_def]
    }

/-- Changes each value. -/
def map (f : V → W) (m : OrderedMap V) : OrderedMap W where
  entries := m.entries.map fun e => (e.1, f e.2)
  index := m.index
  index_iff := by
    intro k i
    rw [m.index_iff k i, List.getElem?_map, Option.map_map]
    rfl

/-- Changes each value, which may depend on its slot. -/
def mapSlots (f : Nat → V → W) (m : OrderedMap V) : OrderedMap W where
  entries := m.entries.mapIdx fun slot e => (e.1, f slot e.2)
  index := m.index
  index_iff := by
    intro k i
    rw [m.index_iff k i, List.getElem?_mapIdx, Option.map_map]
    rfl

/-- What the index becomes when the entry of a key is removed: the slots behind it move up by one. -/
def indexWithout (m : OrderedMap V) (key : Text) (slot : Nat) : Std.ExtTreeMap Text Nat :=
  (m.index.erase key).map fun _ i => if slot < i then i - 1 else i

theorem indexWithout_iff {m : OrderedMap V} {key : Text} {slot : Nat} (h : m.slot? key = some slot)
    (k : Text) (i : Nat) :
    (m.indexWithout key slot)[k]? = some i ↔
      (m.entries.eraseIdx slot)[i]?.map Prod.fst = some k := by
  have here := (m.index_iff key slot).1 h
  have lower := m.index_iff k i
  have upper := m.index_iff k (i + 1)
  simp only [indexWithout, Std.ExtTreeMap.getElem?_map, Std.ExtTreeMap.getElem?_erase,
    Std.LawfulEqCmp.compare_eq_iff_eq, List.getElem?_eraseIdx]
  by_cases hk : key = k
  · subst hk
    simp only [if_true, Option.map_none, reduceCtorEq, false_iff]
    simp only [slot?] at h
    split <;> grind
  · rw [if_neg hk]
    have apart : m.index[k]? ≠ some slot := fun hs => by
      have := (m.index_iff k slot).1 hs
      grind
    cases hj : m.index[k]? with
    | none => grind
    | some j => grind

/-- Removes the entry of a key. -/
def erase (m : OrderedMap V) (key : Text) : OrderedMap V :=
  match h : m.slot? key with
  | none => m
  | some slot => {
      entries := m.entries.eraseIdx slot
      index := m.indexWithout key slot
      index_iff := indexWithout_iff h
    }

/-! ## Entries determine the map -/

theorem index_eq_of_entries {m n : OrderedMap V} (h : m.entries = n.entries) :
    m.index = n.index := by
  apply Std.ExtTreeMap.ext_getElem?
  intro key
  apply Option.ext
  intro slot
  rw [m.index_iff, n.index_iff, h]

@[ext] theorem ext {m n : OrderedMap V} (h : m.entries = n.entries) : m = n := by
  have hi := index_eq_of_entries h
  cases m
  cases n
  simp only at h hi
  subst h hi
  rfl

instance [DecidableEq V] : DecidableEq (OrderedMap V) := fun m n =>
  if h : m.entries = n.entries then .isTrue (ext h) else .isFalse fun he => h (he ▸ rfl)

theorem key_injective (m : OrderedMap V) {i j : Nat} {key : Text}
    (hi : m.entries[i]?.map Prod.fst = some key) (hj : m.entries[j]?.map Prod.fst = some key) :
    i = j := by
  rw [← m.index_iff] at hi hj
  exact Option.some.inj (hi.symm.trans hj)

end OrderedMap

end PhpClass
