-- The `Map` of JavaScript: at most one value for each key, in the order in
-- which the keys were first set.
import Mathlib

namespace Js

structure OrderedMap (K V : Type) where
  entries : List (K × V)
  nodup : (entries.map Prod.fst).Nodup

namespace OrderedMap

variable {K V : Type} [DecidableEq K]

def empty : OrderedMap K V := ⟨[], .nil⟩

def values (m : OrderedMap K V) : List V := m.entries.map Prod.snd

def find (k : K) : List (K × V) → Option V
  | [] => none
  | (k', v) :: es => if k' = k then some v else find k es

def get (m : OrderedMap K V) (k : K) : Option V := find k m.entries

/-- A new value at a key; the other entries stay as they are. -/
def putAt (k : K) (v : V) (e : K × V) : K × V := if e.1 = k then (e.1, v) else e

theorem map_fst_putAt (k : K) (v : V) (es : List (K × V)) :
    (es.map (putAt k v)).map Prod.fst = es.map Prod.fst := by
  rw [List.map_map]
  apply List.map_congr_left
  intro e _
  by_cases he : e.1 = k <;> simp [putAt, he]

theorem find_eq_none_iff {es : List (K × V)} {k : K} :
    find k es = none ↔ k ∉ es.map Prod.fst := by
  induction es with
  | nil => simp [find]
  | cons e es ih =>
    obtain ⟨k', v⟩ := e
    by_cases hk : k' = k
    · simp [find, hk]
    · simp [find, hk, ih, Ne.symm hk]

/-- `m.set(k, v)`: a key that is there keeps its place. -/
def set (m : OrderedMap K V) (k : K) (v : V) : OrderedMap K V :=
  match h : find k m.entries with
  | some _ => ⟨m.entries.map (putAt k v), by rw [map_fst_putAt]; exact m.nodup⟩
  | none => ⟨m.entries ++ [(k, v)], by
      rw [List.map_append]
      exact List.nodup_append.mpr ⟨m.nodup, List.nodup_singleton _, fun a ha b hb hab =>
        find_eq_none_iff.1 h (by simp only [List.map_cons, List.map_nil,
          List.mem_singleton] at hb; rwa [← hb, ← hab])⟩⟩

/-- A change of the object at a key, if there is one. -/
def modify (m : OrderedMap K V) (k : K) (f : V → V) : OrderedMap K V :=
  match m.get k with
  | some v => ⟨m.entries.map (putAt k (f v)), by rw [map_fst_putAt]; exact m.nodup⟩
  | none => m

/-! ## Looking up -/

theorem find_append (es fs : List (K × V)) (k : K) :
    find k (es ++ fs) = (find k es).or (find k fs) := by
  induction es with
  | nil => simp [find]
  | cons e es ih =>
    obtain ⟨k', v⟩ := e
    by_cases hk : k' = k <;> simp [find, hk, ih]

theorem find_putAt_self {es : List (K × V)} {k : K} {w : V} (h : find k es = some w) (v : V) :
    find k (es.map (putAt k v)) = some v := by
  induction es with
  | nil => cases h
  | cons e es ih =>
    obtain ⟨k', v'⟩ := e
    by_cases hk : k' = k
    · simp [find, putAt, hk]
    · rw [find, if_neg hk] at h
      simpa [find, putAt, hk] using ih h

theorem find_putAt_of_ne {es : List (K × V)} {j k : K} (hjk : j ≠ k) (v : V) :
    find j (es.map (putAt k v)) = find j es := by
  induction es with
  | nil => rfl
  | cons e es ih =>
    obtain ⟨k', v'⟩ := e
    simp only [List.map_cons, putAt]
    by_cases hk : k' = k
    · subst hk
      simp only [if_true, find, if_neg hjk.symm]
      exact ih
    · simp only [if_neg hk, find]
      by_cases hj : k' = j
      · simp [hj]
      · simp only [if_neg hj]
        exact ih

@[simp] theorem get_empty (k : K) : (empty : OrderedMap K V).get k = none := rfl

@[simp] theorem get_set_self (m : OrderedMap K V) (k : K) (v : V) :
    (m.set k v).get k = some v := by
  unfold set get
  split
  · rename_i w h
    exact find_putAt_self h v
  · rename_i h
    simp [find_append, h, find]

theorem get_set_of_ne (m : OrderedMap K V) {j k : K} (h : j ≠ k) (v : V) :
    (m.set k v).get j = m.get j := by
  unfold set get
  split
  · exact find_putAt_of_ne h v
  · simp [find_append, find, h.symm]

theorem get_set (m : OrderedMap K V) (j k : K) (v : V) :
    (m.set k v).get j = if j = k then some v else m.get j := by
  by_cases h : j = k
  · subst h
    simp
  · rw [get_set_of_ne m h, if_neg h]

theorem get_modify (m : OrderedMap K V) (j k : K) (f : V → V) :
    (m.modify k f).get j = if j = k then (m.get k).map f else m.get j := by
  unfold modify
  by_cases h : j = k
  · subst h
    rw [if_pos rfl]
    split
    · rename_i v hv
      rw [hv]
      exact find_putAt_self hv (f v)
    · rename_i hv
      simp [hv]
  · rw [if_neg h]
    split
    · exact find_putAt_of_ne h _
    · rfl

theorem find_eq_some_iff {es : List (K × V)} (hd : (es.map Prod.fst).Nodup) {k : K} {v : V} :
    find k es = some v ↔ (k, v) ∈ es := by
  induction es with
  | nil => simp [find]
  | cons e es ih =>
    obtain ⟨k', v'⟩ := e
    simp only [List.map_cons, List.nodup_cons] at hd
    by_cases hk : k' = k
    · subst hk
      have hnot : (k', v) ∉ es := fun hm => hd.1 (List.mem_map.mpr ⟨_, hm, rfl⟩)
      simp [find, hnot, eq_comm]
    · simp [find, hk, ih hd.2, Ne.symm hk]

theorem get_eq_some_iff (m : OrderedMap K V) {k : K} {v : V} :
    m.get k = some v ↔ (k, v) ∈ m.entries := find_eq_some_iff m.nodup

/-- The values are those of the keys. -/
theorem mem_values (m : OrderedMap K V) {v : V} : v ∈ m.values ↔ ∃ k, m.get k = some v := by
  simp only [values, List.mem_map, Prod.exists, exists_eq_right, get_eq_some_iff]

theorem mem_values_of_get {m : OrderedMap K V} {k : K} {v : V} (h : m.get k = some v) :
    v ∈ m.values := m.mem_values.2 ⟨k, h⟩

theorem isSome_get_iff (m : OrderedMap K V) (k : K) :
    (m.get k).isSome ↔ k ∈ m.entries.map Prod.fst := by
  rw [← not_iff_not, Option.not_isSome_iff_eq_none]
  exact find_eq_none_iff

theorem isSome_get_set (m : OrderedMap K V) (j k : K) (v : V) :
    ((m.set k v).get j).isSome ↔ j = k ∨ (m.get j).isSome := by
  rw [get_set]
  by_cases h : j = k <;> simp [h]

theorem modify_of_none {m : OrderedMap K V} {k : K} (h : m.get k = none) (f : V → V) :
    m.modify k f = m := by
  unfold modify
  rw [h]

/-! ## Deleting -/

/-- `m.delete(k)` -/
def erase (m : OrderedMap K V) (k : K) : OrderedMap K V :=
  ⟨m.entries.filter (·.1 ≠ k), (m.nodup.sublist ((List.filter_sublist).map Prod.fst))⟩

theorem find_filter (es : List (K × V)) (j k : K) :
    find j (es.filter (·.1 ≠ k)) = if j = k then none else find j es := by
  induction es with
  | nil => simp [find]
  | cons e es ih =>
    obtain ⟨k', v⟩ := e
    by_cases hk : k' = k
    · subst hk
      by_cases hj : j = k'
      · simpa [hj] using ih
      · simpa [find, hj, Ne.symm hj] using ih
    · by_cases hj : k' = j
      · subst hj
        simp [find, hk]
      · simpa [find, hk, hj] using ih

theorem get_erase (m : OrderedMap K V) (j k : K) :
    (m.erase k).get j = if j = k then none else m.get j := find_filter m.entries j k

/-- One pass over the map that deletes some keys and sets new values at the others. -/
def filterMap (m : OrderedMap K V) (f : V → Option V) : OrderedMap K V :=
  ⟨m.entries.filterMap fun e => (f e.2).map (e.1, ·), by
    have hkeys : (m.entries.filterMap fun e => (f e.2).map (e.1, ·)).map Prod.fst =
        (m.entries.filter fun e => (f e.2).isSome).map Prod.fst := by
      induction m.entries with
      | nil => rfl
      | cons e es ih => cases he : f e.2 <;> simp [he, ih]
    rw [hkeys]
    exact m.nodup.sublist (List.filter_sublist.map Prod.fst)⟩

theorem find_filterMap (es : List (K × V)) (hd : (es.map Prod.fst).Nodup) (f : V → Option V)
    (k : K) : find k (es.filterMap fun e => (f e.2).map (e.1, ·)) = (find k es).bind f := by
  induction es with
  | nil => rfl
  | cons e es ih =>
    obtain ⟨k', v⟩ := e
    rw [List.map_cons, List.nodup_cons] at hd
    by_cases hk : k' = k
    · subst hk
      have hrest : find k' es = none := find_eq_none_iff.2 hd.1
      cases hv : f v <;> simp [find, hv, ih hd.2, hrest]
    · cases hv : f v <;> simp [find, hv, ih hd.2, hk]

theorem get_filterMap (m : OrderedMap K V) (f : V → Option V) (k : K) :
    (m.filterMap f).get k = (m.get k).bind f := find_filterMap m.entries m.nodup f k

def mapValues (m : OrderedMap K V) (f : V → V) : OrderedMap K V :=
  ⟨m.entries.map fun e => (e.1, f e.2), by
    rw [List.map_map]
    exact m.nodup⟩

omit [DecidableEq K] in
theorem values_mapValues (m : OrderedMap K V) (f : V → V) :
    (m.mapValues f).values = m.values.map f := by
  simp [mapValues, values]

omit [DecidableEq K] in
/-- A map of values that are all left as they are. -/
theorem mapValues_eq_self {m : OrderedMap K V} {f : V → V} (h : ∀ v ∈ m.values, f v = v) :
    m.mapValues f = m := by
  have hentries : m.entries.map (fun e => (e.1, f e.2)) = m.entries := by
    conv_rhs => rw [← List.map_id m.entries]
    apply List.map_congr_left
    intro e he
    rw [h e.2 (List.mem_map_of_mem he)]
    rfl
  obtain ⟨entries, nodup⟩ := m
  simpa [mapValues] using hentries

def size (m : OrderedMap K V) : ℕ := m.entries.length

theorem size_set_of_none {m : OrderedMap K V} {k : K} (h : m.get k = none) (v : V) :
    (m.set k v).size = m.size + 1 := by
  unfold set size
  split
  · rename_i w hw
    rw [get, hw] at h
    cases h
  · simp

/-! ## Sums over the values -/

/-- The sum of a weight over all values. -/
def sum (m : OrderedMap K V) (w : V → ℕ) : ℕ := (m.values.map w).sum

/-- What a key adds to the sum. -/
def weightAt (m : OrderedMap K V) (w : V → ℕ) (k : K) : ℕ := (m.get k).elim 0 w

theorem weightAt_set (m : OrderedMap K V) (w : V → ℕ) (k : K) (v : V) :
    (m.set k v).weightAt w k = w v := by
  rw [weightAt, get_set_self]
  rfl

theorem weightAt_modify (m : OrderedMap K V) (w : V → ℕ) (k : K) (f : V → V) :
    (m.modify k f).weightAt w k = (m.get k).elim 0 fun v => w (f v) := by
  rw [weightAt, get_modify, if_pos rfl]
  cases m.get k <;> rfl

/-- The sum over any set of keys that has all keys of the map. -/
theorem sum_eq_weights (m : OrderedMap K V) (w : V → ℕ) {ks : Finset K}
    (hks : ∀ e ∈ m.entries, e.1 ∈ ks) : m.sum w = ∑ k ∈ ks, m.weightAt w k := by
  have hown : ∀ e ∈ m.entries, m.weightAt w e.1 = w e.2 := by
    intro e he
    rw [weightAt, m.get_eq_some_iff.2 he]
    rfl
  have hsub : (m.entries.map Prod.fst).toFinset ⊆ ks := by
    intro k hk
    obtain ⟨e, he, rfl⟩ := List.mem_map.mp (List.mem_toFinset.mp hk)
    exact hks e he
  rw [← Finset.sum_subset hsub, List.sum_toFinset _ m.nodup, List.map_map, sum, values,
    List.map_map]
  · congr 1
    apply List.map_congr_left
    intro e he
    exact (hown e he).symm
  · intro k _ hk
    have hnone : m.get k = none := by
      apply find_eq_none_iff.2
      intro hmem
      exact hk (List.mem_toFinset.mpr hmem)
    rw [weightAt, hnone]
    rfl

/-- The keys of two maps. -/
def keysOf (m m' : OrderedMap K V) : Finset K :=
  (m.entries.map Prod.fst).toFinset ∪ (m'.entries.map Prod.fst).toFinset

theorem sum_eq_left (m m' : OrderedMap K V) (w : V → ℕ) :
    m.sum w = ∑ k ∈ keysOf m m', m.weightAt w k := by
  apply sum_eq_weights
  intro e he
  exact Finset.mem_union_left _ (List.mem_toFinset.mpr (List.mem_map_of_mem he))

theorem sum_eq_right (m m' : OrderedMap K V) (w : V → ℕ) :
    m'.sum w = ∑ k ∈ keysOf m m', m'.weightAt w k := by
  apply sum_eq_weights
  intro e he
  exact Finset.mem_union_right _ (List.mem_toFinset.mpr (List.mem_map_of_mem he))

/-- What no key adds more to has no larger sum. -/
theorem sum_le_sum {m m' : OrderedMap K V} {w w' : V → ℕ}
    (h : ∀ k, m.weightAt w k ≤ m'.weightAt w' k) : m.sum w ≤ m'.sum w' := by
  rw [sum_eq_left m m', sum_eq_right m m']
  exact Finset.sum_le_sum fun k _ => h k

/-- A change at one key changes the sum by what that key adds. -/
theorem sum_step {m m' : OrderedMap K V} {w : V → ℕ} {k : K}
    (h : ∀ j ≠ k, m'.weightAt w j = m.weightAt w j) :
    m'.sum w + m.weightAt w k = m.sum w + m'.weightAt w k := by
  -- both maps have the key, or it adds nothing
  let ks := insert k (keysOf m m')
  have hm : m.sum w = ∑ j ∈ ks, m.weightAt w j := by
    apply sum_eq_weights
    intro e he
    exact Finset.mem_insert_of_mem
      (Finset.mem_union_left _ (List.mem_toFinset.mpr (List.mem_map_of_mem he)))
  have hm' : m'.sum w = ∑ j ∈ ks, m'.weightAt w j := by
    apply sum_eq_weights
    intro e he
    exact Finset.mem_insert_of_mem
      (Finset.mem_union_right _ (List.mem_toFinset.mpr (List.mem_map_of_mem he)))
  have hk : k ∈ ks := Finset.mem_insert_self _ _
  rw [hm, hm', ← Finset.sum_erase_add _ _ hk, ← Finset.sum_erase_add ks (m.weightAt w) hk]
  have hrest : ∑ j ∈ ks.erase k, m'.weightAt w j = ∑ j ∈ ks.erase k, m.weightAt w j := by
    apply Finset.sum_congr rfl
    intro j hj
    exact h j (Finset.ne_of_mem_erase hj)
  rw [hrest]
  omega

end OrderedMap

end Js
