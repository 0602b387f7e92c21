import PhpClass.OrderedMap

/-!
# Ordered maps by their entries

What the operations do to the entries of a map. The index only decides whether a key is present, which
the entries tell as well (`slot?_eq_none_iff`), and a map is determined by its entries.
-/

namespace PhpClass

namespace OrderedMap

variable {V : Type} {m : OrderedMap V} {key : Text} {value : V}

theorem slot?_eq_none_iff : m.slot? key = none ↔ key ∉ m.keys := by
  unfold slot? keys
  rw [Option.eq_none_iff_forall_ne_some]
  constructor
  · intro h hmem
    obtain ⟨slot, hslot⟩ := List.mem_iff_getElem?.1 hmem
    rw [List.getElem?_map] at hslot
    exact h slot ((m.index_iff key slot).2 hslot)
  · intro h slot hslot
    have hmem := (m.index_iff key slot).1 hslot
    rw [← List.getElem?_map] at hmem
    exact h (List.mem_of_getElem? hmem)

/-- No two entries have the same key. -/
theorem nodup_keys (m : OrderedMap V) : m.keys.Nodup := by
  unfold keys
  rw [List.nodup_iff_pairwise_ne, List.pairwise_iff_getElem]
  intro i j hi hj hij he
  have hkey := m.key_injective (i := i) (j := j)
    (by rw [← List.getElem?_map, List.getElem?_eq_getElem hi])
    (by rw [← List.getElem?_map, List.getElem?_eq_getElem hj, he])
  omega

theorem entries_insert (h : key ∉ m.keys) (value : V) :
    ∃ n, m.insert key value = .ok n ∧ n.entries = m.entries ++ [(key, value)] := by
  unfold insert
  rw [dif_pos (slot?_eq_none_iff.2 h)]
  exact ⟨_, rfl, rfl⟩

theorem not_mem_keys_of_entries {n : OrderedMap V} {es : List (Text × V)}
    (h : n.entries = m.entries ++ (key, value) :: es) : key ∉ m.keys := by
  have hnodup := n.nodup_keys
  unfold keys at hnodup ⊢
  rw [h, List.map_append, List.map_cons] at hnodup
  exact fun hmem => (List.nodup_append.1 hnodup).2.2 key hmem key List.mem_cons_self rfl

/-- A map with one entry more has been inserted into. That its key was not present before follows from its
being a map. -/
theorem insert_eq_ok {n : OrderedMap V} :
    m.insert key value = .ok n ↔ n.entries = m.entries ++ [(key, value)] := by
  constructor
  · intro h
    unfold insert at h
    split at h
    · cases h; rfl
    · cases h
  · intro h
    have hnot := not_mem_keys_of_entries h
    obtain ⟨n', hn', he⟩ := entries_insert hnot value
    rw [hn', ext (he.trans h.symm)]

/-- The entries at the front of a map are those of a map. -/
theorem exists_take {n : OrderedMap V} {e : Text × V} {es : List (Text × V)}
    (h : n.entries = m.entries ++ e :: es) : ∃ q : OrderedMap V, q.entries = m.entries ++ [e] := by
  obtain ⟨q, -, hq⟩ := entries_insert (not_mem_keys_of_entries h) e.2
  exact ⟨q, hq⟩

theorem insert_eq_error {e : DuplicateKey} :
    m.insert key value = .error e ↔ key ∈ m.keys ∧ e = ⟨key⟩ := by
  have hslot : m.slot? key = none ↔ key ∉ m.keys := slot?_eq_none_iff
  unfold insert
  split
  · next h => simp [hslot.1 h]
  · next h =>
    have hmem : key ∈ m.keys := by
      by_cases hk : key ∈ m.keys
      · exact hk
      · exact absurd (hslot.2 hk) h
    simp [hmem, eq_comm]

theorem entries_insertNew (h : key ∉ m.keys) (value : V) :
    (m.insertNew key value).entries = m.entries ++ [(key, value)] := by
  obtain ⟨n, hn, he⟩ := entries_insert h value
  unfold insertNew
  rw [hn]
  exact he

theorem entries_foldl_insertNew {es : List (Text × V)} (h : (m.keys ++ es.map Prod.fst).Nodup) :
    (es.foldl (fun m e => m.insertNew e.1 e.2) m).entries = m.entries ++ es := by
  induction es generalizing m with
  | nil => simp
  | cons e es ih =>
    have hnot : e.1 ∉ m.keys := fun hmem =>
      (List.nodup_append.1 h).2.2 e.1 hmem e.1 (by simp) rfl
    have hentries := entries_insertNew hnot e.2
    have hkeys : (m.insertNew e.1 e.2).keys = m.keys ++ [e.1] := by
      unfold keys
      rw [hentries]
      simp
    rw [List.foldl_cons, ih (by rw [hkeys]; simpa using h), hentries]
    simp

theorem entries_ofList {es : List (Text × V)} (h : (es.map Prod.fst).Nodup) :
    (ofList es).entries = es :=
  (entries_foldl_insertNew (m := empty) (by simpa [keys, empty] using h)).trans (List.nil_append es)

/-! ## Values under their names -/

/-- The map that holds each value under its name. -/
def keyed (name : V → Text) (vs : List V) : OrderedMap V := ofList (vs.map fun v => (name v, v))

theorem entries_keyed {name : V → Text} {vs : List V} (h : (vs.map name).Nodup) :
    (keyed name vs).entries = vs.map fun v => (name v, v) :=
  entries_ofList (by simpa [Function.comp_def] using h)

theorem values_of_entries {name : V → Text} {vs : List V} (h : m.entries = vs.map fun v => (name v, v)) :
    m.values = vs ∧ m.keys = m.values.map name := by
  have hvalues : m.values = vs := by
    unfold values
    rw [h, List.map_map]
    exact List.map_id' vs
  refine ⟨hvalues, ?_⟩
  rw [hvalues]
  unfold keys
  rw [h, List.map_map]
  rfl

/-- A map whose keys are the names of its values. -/
theorem eq_keyed {name : V → Text} (h : m.keys = m.values.map name) : m = keyed name m.values := by
  have hnodup := m.nodup_keys
  rw [h] at hnodup
  refine ext ?_
  rw [entries_keyed hnodup]
  unfold values keys at *
  rw [List.map_map, List.map_inj_left] at h
  rw [List.map_map]
  conv => lhs; rw [← List.map_id m.entries]
  refine List.map_congr_left fun e he => ?_
  exact Prod.ext (h e he) rfl

end OrderedMap

end PhpClass
