import PhpClass.Proofs.OrderedMap

/-!
# Sessions on ordered maps

A session goes through the operations of a map in any order and any number (`OrderedMap.edit`). Each of them
is also an operation on a plain list of entries, which knows of no index (`Entries.edit`).

* `OrderedMap.session_entries`: from the empty map on, a session answers and leaves behind what the same session
  does on the list. So the index never names a wrong slot, whatever was removed in front of it.
* `Drives.keys_session`: the keys of a map are those that were added and not removed since, in the order in which
  they were added last (`KeyEvent.surviving`), also where the map is part of a greater system.
-/

namespace PhpClass

/-! ## Sessions -/

/-- What the steps answer, one after the other, and the state behind the last of them. -/
def session {σ ε α : Type} (step : σ → ε → α × σ) (s : σ) : List ε → List α × σ
  | [] => ([], s)
  | e :: es =>
    let next := session step (step s e).2 es
    ((step s e).1 :: next.1, next.2)

/-- If each step on a state is seen in a view of it, so is a session. -/
theorem session_view {σ τ ε α : Type} {step : σ → ε → α × σ} {seen : τ → ε → α × τ} {view : σ → τ}
    (h : ∀ s e, seen (view s) e = ((step s e).1, view (step s e).2)) (s : σ) (es : List ε) :
    session seen (view s) es = ((session step s es).1, view (session step s es).2) := by
  induction es generalizing s with
  | nil => rfl
  | cons e es ih =>
    simp only [session, h]
    rw [ih]

/-- The answer to an operation: a success, a name that is taken, or the value that was found. -/
inductive Answer (ε V : Type) where
  | inserted
  | duplicate (e : ε)
  | found (value : Option V)
  | done
  deriving DecidableEq, Repr

/-- The same answer with the name told in another way. -/
def Answer.mapError {ε δ V : Type} (f : ε → δ) : Answer ε V → Answer δ V
  | inserted => inserted
  | duplicate e => duplicate (f e)
  | found value => found value
  | done => done

/-- An operation on a map. -/
inductive MapEdit (V : Type) where
  | insert (key : Text) (value : V)
  | erase (key : Text)
  | modify (key : Text) (f : V → V)
  | modifyAll (f : Nat → V → V)

/-- The operations on a map, with their answers. A map that an insertion fails on stays as it is. -/
def OrderedMap.edit {V : Type} (m : OrderedMap V) : MapEdit V → Answer DuplicateKey V × OrderedMap V
  | .insert key value =>
    match m.insert key value with
    | .ok n => (.inserted, n)
    | .error e => (.duplicate e, m)
  | .erase key => (.found (m.get? key), m.erase key)
  | .modify key f => (.found (m.get? key), m.modify key f)
  | .modifyAll f => (.done, m.mapSlots f)

/-- The same operations on a list of entries, of which each is looked for from the front. -/
def Entries.edit {V : Type} (es : List (Text × V)) :
    MapEdit V → Answer DuplicateKey V × List (Text × V)
  | .insert key value =>
    if (es.lookup key).isSome then (.duplicate ⟨key⟩, es) else (.inserted, es ++ [(key, value)])
  | .erase key => (.found (es.lookup key), es.filter fun e => e.1 != key)
  | .modify key f => (.found (es.lookup key), es.map fun e => if e.1 = key then (e.1, f e.2) else e)
  | .modifyAll f => (.done, es.mapIdx fun slot e => (e.1, f slot e.2))

namespace OrderedMap

variable {V : Type} {m : OrderedMap V} {key : Text} {slot : Nat}

/-! ## Operations on the entries -/

/-- Around the entry of a key stand entries of other keys. -/
theorem exists_entry (h : m.slot? key = some slot) :
    ∃ before value behind, m.entries = before ++ (key, value) :: behind ∧ before.length = slot ∧
      (∀ e ∈ before, e.1 ≠ key) ∧ ∀ e ∈ behind, e.1 ≠ key := by
  have hslot := (m.index_iff key slot).1 h
  obtain ⟨⟨key', value⟩, he, rfl⟩ := Option.map_eq_some_iff.1 hslot
  obtain ⟨hlt, he⟩ := List.getElem?_eq_some_iff.1 he
  have hsplit : m.entries = m.entries.take slot ++ (key', value) :: m.entries.drop (slot + 1) := by
    rw [← he, List.getElem_cons_drop, List.take_append_drop]
  have hnodup := m.nodup_keys
  unfold keys at hnodup
  rw [hsplit, List.map_append, List.map_cons, List.nodup_append, List.nodup_cons] at hnodup
  obtain ⟨-, ⟨hbehind, -⟩, hbefore⟩ := hnodup
  refine ⟨m.entries.take slot, value, m.entries.drop (slot + 1), hsplit, ?_, ?_, ?_⟩
  · rw [List.length_take]
    omega
  · intro e hm he
    exact hbefore e.1 (List.mem_map_of_mem hm) key' List.mem_cons_self he
  · intro e hm he
    exact hbehind (he ▸ List.mem_map_of_mem hm)

theorem not_mem_keys_of_slot? (h : m.slot? key = none) : ∀ e ∈ m.entries, e.1 ≠ key := by
  intro e hm he
  exact slot?_eq_none_iff.1 h (he ▸ List.mem_map_of_mem hm)

theorem lookup_eq_none {es : List (Text × V)} (h : ∀ e ∈ es, e.1 ≠ key) : es.lookup key = none := by
  rw [List.lookup_eq_none_iff]
  intro e hm
  simpa using (h e hm).symm

theorem lookup_append_cons {before behind : List (Text × V)} (value : V) (h : ∀ e ∈ before, e.1 ≠ key) :
    (before ++ (key, value) :: behind).lookup key = some value := by
  rw [List.lookup_eq_some_iff]
  refine ⟨before, behind, rfl, ?_⟩
  intro e hm
  simpa using (h e hm).symm

theorem get?_eq_lookup (m : OrderedMap V) (key : Text) : m.get? key = m.entries.lookup key := by
  unfold get?
  cases h : m.slot? key with
  | none => rw [lookup_eq_none (not_mem_keys_of_slot? h)]; rfl
  | some slot =>
    obtain ⟨before, value, behind, he, rfl, hbefore, -⟩ := exists_entry h
    rw [he, lookup_append_cons value hbefore]
    simp

theorem isSome_lookup (m : OrderedMap V) (key : Text) :
    (m.entries.lookup key).isSome = true ↔ key ∈ m.keys := by
  rw [← get?_eq_lookup]
  unfold get?
  cases h : m.slot? key with
  | none => simpa using slot?_eq_none_iff.1 h
  | some slot =>
    obtain ⟨before, value, behind, he, rfl, -, -⟩ := exists_entry h
    simp [keys, he]

theorem contains_eq_isSome (m : OrderedMap V) (key : Text) :
    m.contains key = (m.entries.lookup key).isSome := by
  have hslot : m.slot? key = none ↔ key ∉ m.keys := slot?_eq_none_iff
  rw [Bool.eq_iff_iff, isSome_lookup]
  unfold contains
  cases h : m.slot? key with
  | none => simpa using hslot.1 h
  | some slot => simpa [h] using hslot

theorem entries_erase (m : OrderedMap V) (key : Text) :
    (m.erase key).entries = m.entries.filter fun e => e.1 != key := by
  unfold erase
  split
  · next h =>
    rw [List.filter_eq_self.2]
    intro e hm
    simpa using not_mem_keys_of_slot? h e hm
  · next slot h =>
    obtain ⟨before, value, behind, he, rfl, hbefore, hbehind⟩ := exists_entry h
    have hkeep : ∀ es : List (Text × V), (∀ e ∈ es, e.1 ≠ key) → es.filter (fun e => e.1 != key) = es := by
      intro es hes
      exact List.filter_eq_self.2 fun e hm => by simpa using hes e hm
    dsimp only
    rw [he, List.eraseIdx_append_of_length_le (Nat.le_refl _), List.filter_append, hkeep before hbefore]
    simp [hkeep behind hbehind]

theorem entries_modify (m : OrderedMap V) (key : Text) (f : V → V) :
    (m.modify key f).entries = m.entries.map fun e => if e.1 = key then (e.1, f e.2) else e := by
  have hkeep : ∀ es : List (Text × V), (∀ e ∈ es, e.1 ≠ key) →
      es.map (fun e => if e.1 = key then (e.1, f e.2) else e) = es := by
    intro es hes
    refine (List.map_congr_left fun e hm => if_neg (hes e hm)).trans (List.map_id' es)
  unfold modify
  split
  · next h => exact (hkeep _ (not_mem_keys_of_slot? h)).symm
  · next slot h =>
    obtain ⟨before, value, behind, he, rfl, hbefore, hbehind⟩ := exists_entry h
    dsimp only
    rw [he, List.map_append, hkeep before hbefore, List.map_cons, hkeep behind hbehind]
    simp [List.modify_eq_take_drop]

theorem edit_insert_of_mem {m : OrderedMap V} {key : Text} (value : V) (h : key ∈ m.keys) :
    m.edit (.insert key value) = (.duplicate ⟨key⟩, m) := by
  have hfail : m.insert key value = .error ⟨key⟩ := insert_eq_error.2 ⟨h, rfl⟩
  simp only [edit, hfail]

theorem edit_insert_of_not_mem {m : OrderedMap V} {key : Text} (value : V) (h : key ∉ m.keys) :
    ∃ n, m.edit (.insert key value) = (.inserted, n) ∧ n.entries = m.entries ++ [(key, value)] := by
  obtain ⟨n, hn, he⟩ := entries_insert h value
  exact ⟨n, by simp only [edit, hn], he⟩

/-- An operation on a map is seen in its entries. -/
theorem entries_edit (m : OrderedMap V) (e : MapEdit V) :
    Entries.edit m.entries e = ((m.edit e).1, (m.edit e).2.entries) := by
  cases e with
  | insert key value =>
    have hlookup := isSome_lookup m key
    by_cases hk : key ∈ m.keys
    · rw [edit_insert_of_mem value hk]
      exact if_pos (hlookup.2 hk)
    · obtain ⟨n, hn, he⟩ := edit_insert_of_not_mem value hk
      rw [hn, he]
      exact if_neg fun h => hk (hlookup.1 h)
  | erase key => simp only [Entries.edit, edit, get?_eq_lookup, entries_erase]
  | modify key f => simp only [Entries.edit, edit, get?_eq_lookup, entries_modify]
  | modifyAll f => rfl

end OrderedMap

namespace OrderedMap

variable {V : Type}

theorem get?_modify (m : OrderedMap V) (key : Text) (f : V → V) :
    (m.modify key f).get? key = (m.get? key).map f := by
  rw [get?_eq_lookup, get?_eq_lookup, entries_modify]
  induction m.entries with
  | nil => rfl
  | cons e es ih =>
    obtain ⟨k, value⟩ := e
    by_cases hk : k = key
    · simp [hk]
    · have hne : (key == k) = false := by simpa using fun h => hk h.symm
      simp only [List.map_cons, if_neg hk, List.lookup_cons, hne]
      exact ih

theorem get?_erase (m : OrderedMap V) (key : Text) : (m.erase key).get? key = none := by
  rw [get?_eq_lookup, entries_erase]
  refine lookup_eq_none fun e he => ?_
  simpa using (List.mem_filter.1 he).2

theorem isSome_get? (m : OrderedMap V) (key : Text) : (m.get? key).isSome = true ↔ key ∈ m.keys := by
  rw [get?_eq_lookup, isSome_lookup]

/-- A change that keeps the value that is there changes nothing. -/
theorem modify_eq_self {m : OrderedMap V} {key : Text} {f : V → V} (h : ∀ v, m.get? key = some v → f v = v) :
    m.modify key f = m := by
  unfold modify
  split
  · rfl
  · next slot hslot =>
    obtain ⟨before, value, behind, he, rfl, -, -⟩ := exists_entry hslot
    have hvalue : f value = value := h value (by simp [get?, hslot, he])
    refine ext ?_
    dsimp only
    rw [he, List.modify_eq_take_drop]
    simp [hvalue]

end OrderedMap

/-- The key that an operation is about, if it is about one. -/
def MapEdit.key? {V : Type} : MapEdit V → Option Text
  | .insert key _ => some key
  | .erase key => some key
  | .modify key _ => some key
  | .modifyAll _ => none

/-- An operation leaves the entries of the other keys alone, and their order. -/
theorem Entries.filter_edit {V : Type} (es : List (Text × V)) {e : MapEdit V} {key : Text} (h : e.key? = some key) :
    (Entries.edit es e).2.filter (fun x => x.1 != key) = es.filter fun x => x.1 != key := by
  cases e with
  | insert k value =>
    obtain rfl : k = key := Option.some.inj h
    by_cases hk : (es.lookup k).isSome = true <;> simp [Entries.edit, hk]
  | erase k =>
    obtain rfl : k = key := Option.some.inj h
    simp only [Entries.edit, List.filter_filter, Bool.and_self]
  | modify k f =>
    obtain rfl : k = key := Option.some.inj h
    have hkey : ((fun x : Text × V => x.1 != k) ∘ fun x => if x.1 = k then (x.1, f x.2) else x) =
        fun x => x.1 != k := by
      funext x
      by_cases hx : x.1 = k <;> simp [hx]
    simp only [Entries.edit, List.filter_map, hkey]
    refine (List.map_congr_left fun x hx => if_neg ?_).trans (List.map_id' _)
    simpa using (List.mem_filter.1 hx).2
  | modifyAll f => cases h

namespace OrderedMap

variable {V : Type}

theorem lookup_filter_of_ne {k key : Text} (h : k ≠ key) (es : List (Text × V)) :
    (es.filter fun x => x.1 != k).lookup key = es.lookup key := by
  induction es with
  | nil => rfl
  | cons e es ih =>
    obtain ⟨k', value⟩ := e
    by_cases hk : k' = k
    · have hne : (key == k') = false := by simpa [hk] using h.symm
      rw [List.filter_cons_of_neg (by simpa using hk), ih, List.lookup_cons, hne]
    · rw [List.filter_cons_of_pos (by simpa using hk), List.lookup_cons, List.lookup_cons, ih]

theorem get?_edit_of_ne {m : OrderedMap V} {e : MapEdit V} {k key : Text} (hk : e.key? = some k) (h : k ≠ key) :
    (m.edit e).2.get? key = m.get? key := by
  have hframe := Entries.filter_edit m.entries hk
  rw [entries_edit] at hframe
  rw [get?_eq_lookup, get?_eq_lookup, ← lookup_filter_of_ne h, hframe, lookup_filter_of_ne h]

end OrderedMap

/-! ## Keys over time -/

/-- What a session does to the keys of a map. -/
inductive KeyEvent where
  | added (key : Text)
  | removed (key : Text)
  deriving DecidableEq, Repr

namespace KeyEvent

/-- The keys behind an event. -/
def apply (keys : List Text) : KeyEvent → List Text
  | added key => keys ++ [key]
  | removed key => keys.filter fun k => k != key

def isAddition : KeyEvent → Bool
  | added _ => true
  | removed _ => false

/-- The keys that were added and not removed since, in the order in which they were added. -/
def surviving : List KeyEvent → List Text
  | [] => []
  | added key :: later => if removed key ∈ later then surviving later else key :: surviving later
  | removed _ :: later => surviving later

theorem surviving_append (past : List KeyEvent) (e : KeyEvent) :
    surviving (past ++ [e]) = e.apply (surviving past) := by
  induction past with
  | nil => cases e <;> rfl
  | cons x past ih =>
    cases x with
    | removed key => exact ih
    | added key =>
      simp only [List.cons_append, surviving, ih, List.mem_append, List.mem_singleton]
      cases e with
      | added k =>
        by_cases h : removed key ∈ past
        · simp [h]
        · simp [h, apply]
      | removed k =>
        by_cases h : removed key ∈ past
        · simp [h]
        · by_cases hk : key = k
          · subst hk
            simp [h, apply]
          · simp [h, hk, apply]

theorem surviving_additions (keys : List Text) : surviving (keys.map added) = keys := by
  induction keys with
  | nil => rfl
  | cons key keys ih =>
    have hnot : removed key ∉ keys.map added := by simp
    rw [List.map_cons, surviving, if_neg hnot, ih]

/-- The key was added and has not been removed since. -/
def Standing (key : Text) (log : List KeyEvent) : Prop :=
  ∃ before since, log = before ++ added key :: since ∧ removed key ∉ since

theorem mem_surviving {key : Text} {log : List KeyEvent} : key ∈ surviving log ↔ Standing key log := by
  constructor
  · intro h
    induction log with
    | nil => cases h
    | cons x log ih =>
      have hlater : key ∈ surviving log → Standing key (x :: log) := by
        intro h
        obtain ⟨before, since, rfl, hs⟩ := ih h
        exact ⟨x :: before, since, rfl, hs⟩
      cases x with
      | removed k => exact hlater h
      | added k =>
        rw [surviving] at h
        split at h
        · exact hlater h
        · next hk =>
          rcases List.mem_cons.1 h with rfl | h
          · exact ⟨[], log, rfl, hk⟩
          · exact hlater h
  · rintro ⟨before, since, rfl, hs⟩
    induction before with
    | nil => rw [List.nil_append, surviving, if_neg hs]; exact List.mem_cons_self
    | cons x before ih =>
      cases x with
      | removed k => exact ih
      | added k =>
        rw [List.cons_append, surviving]
        split
        · exact ih
        · exact List.mem_cons_of_mem _ ih

end KeyEvent

/-- The event that an operation with this answer was. A failed insertion and a removal of nothing are none. -/
def MapEdit.event? {ε V : Type} : MapEdit V → Answer ε V → Option KeyEvent
  | .insert key _, .inserted => some (.added key)
  | .erase key, .found (some _) => some (.removed key)
  | _, _ => none

theorem MapEdit.event?_mapError {ε δ V : Type} (e : MapEdit V) (a : Answer ε V) (f : ε → δ) :
    e.event? (a.mapError f) = e.event? a := by
  cases a with
  | found value => cases e <;> cases value <;> rfl
  | inserted => cases e <;> rfl
  | duplicate d => cases e <;> rfl
  | done => cases e <;> rfl

namespace OrderedMap

variable {V : Type}

/-- What one operation does to the keys. -/
theorem keys_edit (m : OrderedMap V) (e : MapEdit V) :
    (m.edit e).2.keys = (e.event? (m.edit e).1).elim m.keys (KeyEvent.apply m.keys) := by
  cases e with
  | insert key value =>
    by_cases hk : key ∈ m.keys
    · rw [edit_insert_of_mem value hk]
      rfl
    · obtain ⟨n, hn, he⟩ := edit_insert_of_not_mem value hk
      rw [hn]
      simp [MapEdit.event?, KeyEvent.apply, keys, he]
  | erase key =>
    have hkeys : (m.erase key).keys = m.keys.filter fun k => k != key := by
      unfold keys
      rw [entries_erase, List.filter_map]
      rfl
    cases hg : m.get? key with
    | some value => simp [edit, hg, MapEdit.event?, KeyEvent.apply, hkeys]
    | none =>
      have hnot : key ∉ m.keys := by
        rw [← isSome_lookup, ← get?_eq_lookup, hg]
        exact Bool.false_ne_true
      simp only [edit, hg, MapEdit.event?, Option.elim_none, hkeys]
      refine List.filter_eq_self.2 fun k hk => ?_
      simp only [bne_iff_ne, ne_eq]
      exact fun he => hnot (he ▸ hk)
  | modify key f =>
    simp only [edit, MapEdit.event?, Option.elim_none, keys, entries_modify, List.map_map]
    refine List.map_congr_left fun e _ => ?_
    by_cases he : e.1 = key <;> simp [he]
  | modifyAll f =>
    simp only [edit, MapEdit.event?, Option.elim_none, keys, mapSlots]
    exact List.ext_getElem (by simp) (by simp)

theorem mem_keys_of_removed {m : OrderedMap V} {e : MapEdit V} {key : Text}
    (h : e.event? (m.edit e).1 = some (.removed key)) : key ∈ m.keys := by
  cases e with
  | erase k =>
    cases hg : m.get? k with
    | none => simp [edit, hg, MapEdit.event?] at h
    | some value =>
      simp only [edit, hg, MapEdit.event?, Option.some.injEq, KeyEvent.removed.injEq] at h
      rw [← h, ← isSome_lookup, ← get?_eq_lookup, hg]
      rfl
  | insert k value =>
    unfold MapEdit.event? at h
    split at h <;> simp_all
  | modify k f => cases h
  | modifyAll f => cases h

/-- Each addition makes a map longer by one, each removal shorter by one. -/
theorem size_edit (m : OrderedMap V) (e : MapEdit V) :
    (m.edit e).2.size + (e.event? (m.edit e).1).toList.countP (!·.isAddition) =
      m.size + (e.event? (m.edit e).1).toList.countP (·.isAddition) := by
  have hsize : ∀ n : OrderedMap V, n.size = n.keys.length := fun n => by simp [size, keys]
  rw [hsize, hsize, keys_edit]
  cases hevent : e.event? (m.edit e).1 with
  | none => rfl
  | some x =>
    cases x with
    | added key => simp [KeyEvent.apply, KeyEvent.isAddition]
    | removed key =>
      have hmem := mem_keys_of_removed hevent
      have hpos := List.length_pos_of_mem hmem
      have hlength := List.length_erase_of_mem hmem
      rw [m.nodup_keys.erase_eq_filter] at hlength
      simp [KeyEvent.apply, KeyEvent.isAddition]
      omega

end OrderedMap

/-! ## Systems with a map in them -/

/-- The events of a session in which each step is this operation on a map, and each answer holds that of the map. -/
def events {ε α δ V : Type} (op : ε → MapEdit V) (said : α → Answer δ V) (es : List ε) (answers : List α) :
    List KeyEvent :=
  (es.zip answers).filterMap fun p => (op p.1).event? (said p.2)

/-- Each step of the system is an operation on a map that is part of it. -/
structure Drives {σ ε α δ V : Type} (step : σ → ε → α × σ) (view : σ → OrderedMap V) (op : ε → MapEdit V)
    (said : α → Answer δ V) : Prop where
  view_step : ∀ s e, view (step s e).2 = ((view s).edit (op e)).2
  event_step : ∀ s e, (op e).event? (said (step s e).1) = (op e).event? ((view s).edit (op e)).1

namespace Drives

variable {σ ε α δ V : Type} {step : σ → ε → α × σ} {view : σ → OrderedMap V} {op : ε → MapEdit V}
  {said : α → Answer δ V}

theorem events_cons (h : Drives step view op said) (s : σ) (e : ε) (es : List ε) :
    events op said (e :: es) (session step s (e :: es)).1 =
      ((op e).event? ((view s).edit (op e)).1).toList ++
        events op said es (session step (step s e).2 es).1 := by
  rw [← h.event_step]
  simp only [session, events, List.zip_cons_cons, List.filterMap_cons]
  cases (op e).event? (said (step s e).1) <;> rfl

/-- What the session does to the map is what its operations do to the entries. -/
theorem entries_session (h : Drives step view op said) (s : σ) (es : List ε) :
    (session Entries.edit (view s).entries (es.map op)).2 = (view (session step s es).2).entries := by
  induction es generalizing s with
  | nil => rfl
  | cons e es ih =>
    simp only [List.map_cons, session, OrderedMap.entries_edit]
    rw [← ih, h.view_step]

/-- The keys are those that were added and not removed since. -/
theorem keys_session (h : Drives step view op said) {s : σ} {past : List KeyEvent}
    (hpast : (view s).keys = KeyEvent.surviving past) (es : List ε) :
    (view (session step s es).2).keys =
      KeyEvent.surviving (past ++ events op said es (session step s es).1) := by
  induction es generalizing s past with
  | nil => simpa [session, events] using hpast
  | cons e es ih =>
    have hkeys := OrderedMap.keys_edit (view s) (op e)
    rw [← h.view_step, hpast] at hkeys
    rw [h.events_cons, ← List.append_assoc]
    refine ih ?_
    cases hevent : (op e).event? ((view s).edit (op e)).1 with
    | none => rw [hkeys, hevent]; simp
    | some x => rw [hkeys, hevent, Option.toList_some, KeyEvent.surviving_append]; rfl

end Drives

namespace OrderedMap

variable {V : Type}

/-- **A map that goes through a session is its list of entries.** The session answers what it would answer on the
list, and leaves the same entries behind; the index holds the slots of these entries and nothing else, and a key is
found under it exactly if it is found in the list. -/
theorem session_entries (es : List (MapEdit V)) :
    let m := (session edit (∅ : OrderedMap V) es).2
    session Entries.edit [] es = ((session edit (∅ : OrderedMap V) es).1, m.entries) ∧
      (∀ (key : Text) (slot : Nat), m.index[key]? = some slot ↔ m.entries[slot]?.map Prod.fst = some key) ∧
      m.keys.Nodup ∧
      (∀ key, m.get? key = m.entries.lookup key ∧ m.contains key = (m.entries.lookup key).isSome) ∧
      (∀ f, m.map f = (m.edit (.modifyAll fun _ => f)).2) ∧
      ∀ fs, m = (session edit (∅ : OrderedMap V) fs).2 ↔
        m.entries = (session edit (∅ : OrderedMap V) fs).2.entries := by
  intro m
  refine ⟨session_view entries_edit ∅ es, m.index_iff, m.nodup_keys, fun key => ?_, fun f => ?_, fun fs => ?_⟩
  · exact ⟨get?_eq_lookup m key, contains_eq_isSome m key⟩
  · exact ext (List.ext_getElem (by simp [edit, map, mapSlots]) (by simp [edit, map, mapSlots]))
  · exact ⟨congrArg entries, ext⟩

end OrderedMap

end PhpClass
