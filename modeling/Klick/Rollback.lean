-- Trees of calls in which a failed call takes back everything under it: the
-- nodes with their paths, and those that no failed node lies above.
import Mathlib

namespace Rollback

inductive CallTree (α : Type)
  | node (data : α) (kids : List (CallTree α))

namespace CallTree

variable {α : Type}

mutual

/-- All nodes under a path, the node of the path first. -/
def nodes (base : List ℕ) : CallTree α → List (List ℕ × α)
  | node a kids => (base, a) :: nodesOf base 0 kids

/-- The nodes of the calls from the number `i` on. -/
def nodesOf (base : List ℕ) (i : ℕ) : List (CallTree α) → List (List ℕ × α)
  | [] => []
  | t :: ts => nodes (base ++ [i]) t ++ nodesOf base (i + 1) ts

end

mutual

/-- The nodes that stand: neither failed nor under a failed one. -/
def live (failed : α → Bool) (base : List ℕ) : CallTree α → List (List ℕ × α)
  | node a kids => if failed a then [] else (base, a) :: liveOf failed base 0 kids

def liveOf (failed : α → Bool) (base : List ℕ) (i : ℕ) : List (CallTree α) → List (List ℕ × α)
  | [] => []
  | t :: ts => live failed (base ++ [i]) t ++ liveOf failed base (i + 1) ts

end

mutual

/-- What the calls do together: a failed call does nothing, and nothing under it is done. -/
def effect (failed : α → Bool) (f : α → ℤ) : CallTree α → ℤ
  | node a kids => if failed a then 0 else f a + effectOf failed f kids

def effectOf (failed : α → Bool) (f : α → ℤ) : List (CallTree α) → ℤ
  | [] => 0
  | t :: ts => effect failed f t + effectOf failed f ts

end

def root : CallTree α → α
  | node a _ => a

/-! ## Paths -/

mutual

theorem base_kept {base : List ℕ} : ∀ {t : CallTree α} {n : List ℕ × α},
    n ∈ nodes base t → base <+: n.1
  | node a kids, n, h => by
    rw [nodes] at h
    rcases List.mem_cons.mp h with rfl | h
    · exact List.prefix_rfl
    · obtain ⟨j, -, hj⟩ := base_keptOf h
      exact (List.prefix_append base [j]).trans hj

theorem base_keptOf {base : List ℕ} : ∀ {i : ℕ} {ts : List (CallTree α)} {n : List ℕ × α},
    n ∈ nodesOf base i ts → ∃ j, i ≤ j ∧ base ++ [j] <+: n.1
  | i, t :: ts, n, h => by
    rw [nodesOf] at h
    rcases List.mem_append.mp h with h | h
    · exact ⟨i, le_rfl, base_kept h⟩
    · obtain ⟨j, hij, hj⟩ := base_keptOf h
      exact ⟨j, by omega, hj⟩

end

/-- Two numbered calls under one path do not meet. -/
theorem branch_eq {base p : List ℕ} {i j : ℕ} (hi : base ++ [i] <+: p) (hj : base ++ [j] <+: p) :
    i = j := by
  obtain ⟨s, rfl⟩ := hi
  obtain ⟨s', hs⟩ := hj
  simp only [List.append_assoc, List.singleton_append] at hs
  exact (List.cons.inj (List.append_cancel_left hs)).1.symm

mutual

theorem nodes_nodup (base : List ℕ) : ∀ t : CallTree α, ((nodes base t).map Prod.fst).Nodup
  | node a kids => by
    rw [nodes, List.map_cons, List.nodup_cons]
    refine ⟨?_, nodesOf_nodup base 0 kids⟩
    intro h
    obtain ⟨n, hn, heq⟩ := List.mem_map.mp h
    obtain ⟨j, -, hj⟩ := base_keptOf hn
    have hlen := hj.length_le
    rw [heq] at hlen
    simp at hlen

theorem nodesOf_nodup (base : List ℕ) (i : ℕ) :
    ∀ ts : List (CallTree α), ((nodesOf base i ts).map Prod.fst).Nodup
  | [] => by simp [nodesOf]
  | t :: ts => by
    rw [nodesOf, List.map_append]
    refine List.Nodup.append (nodes_nodup _ t) (nodesOf_nodup base (i + 1) ts) ?_
    intro p hp hq
    obtain ⟨n, hn, rfl⟩ := List.mem_map.mp hp
    obtain ⟨m, hm, heq⟩ := List.mem_map.mp hq
    obtain ⟨j, hij, hj⟩ := base_keptOf hm
    rw [heq] at hj
    have := branch_eq (base_kept hn) hj
    omega

end

/-! ## What stands -/

/-- No failed node lies at or above the path. -/
def Stands (failed : α → Bool) (all : List (List ℕ × α)) (p : List ℕ) : Prop :=
  ∀ m ∈ all, failed m.2 = true → ¬ m.1 <+: p

mutual

theorem mem_live {failed : α → Bool} {base : List ℕ} : ∀ {t : CallTree α} {n : List ℕ × α},
    n ∈ live failed base t ↔ n ∈ nodes base t ∧ Stands failed (nodes base t) n.1
  | node a kids, n => by
    rw [live, nodes]
    by_cases ha : failed a = true
    · simp only [ha, if_true, List.not_mem_nil, false_iff, not_and]
      intro hn hs
      have hbase : base <+: n.1 := base_kept (t := node a kids) (by rw [nodes]; exact hn)
      exact hs _ List.mem_cons_self ha hbase
    · rw [if_neg ha, List.mem_cons, List.mem_cons, mem_liveOf]
      constructor
      · rintro (rfl | ⟨hn, hs⟩)
        · refine ⟨Or.inl rfl, ?_⟩
          intro m hm hf hp
          rcases List.mem_cons.mp hm with rfl | hm
          · exact ha hf
          · obtain ⟨j, -, hj⟩ := base_keptOf hm
            have := (hj.trans hp).length_le
            simp at this
        · refine ⟨Or.inr hn, ?_⟩
          intro m hm hf hp
          rcases List.mem_cons.mp hm with rfl | hm
          · exact ha hf
          · exact hs m hm hf hp
      · rintro ⟨rfl | hn, hs⟩
        · exact Or.inl rfl
        · exact Or.inr ⟨hn, fun m hm => hs m (List.mem_cons_of_mem _ hm)⟩

theorem mem_liveOf {failed : α → Bool} {base : List ℕ} :
    ∀ {i : ℕ} {ts : List (CallTree α)} {n : List ℕ × α},
    n ∈ liveOf failed base i ts ↔ n ∈ nodesOf base i ts ∧ Stands failed (nodesOf base i ts) n.1
  | i, [], n => by simp [liveOf, nodesOf]
  | i, t :: ts, n => by
    rw [liveOf, nodesOf, List.mem_append, List.mem_append, mem_live, mem_liveOf]
    constructor
    · rintro (⟨hn, hs⟩ | ⟨hn, hs⟩)
      · refine ⟨Or.inl hn, ?_⟩
        intro m hm hf hp
        rcases List.mem_append.mp hm with hm | hm
        · exact hs m hm hf hp
        · obtain ⟨j, hij, hj⟩ := base_keptOf hm
          have := branch_eq (base_kept hn) (hj.trans hp)
          omega
      · refine ⟨Or.inr hn, ?_⟩
        intro m hm hf hp
        rcases List.mem_append.mp hm with hm | hm
        · obtain ⟨j, hij, hj⟩ := base_keptOf hn
          have := branch_eq ((base_kept hm).trans hp) hj
          omega
        · exact hs m hm hf hp
    · rintro ⟨hn | hn, hs⟩
      · exact Or.inl ⟨hn, fun m hm => hs m (List.mem_append_left _ hm)⟩
      · exact Or.inr ⟨hn, fun m hm => hs m (List.mem_append_right _ hm)⟩

end

theorem live_subset {failed : α → Bool} {base : List ℕ} {t : CallTree α} {n : List ℕ × α}
    (h : n ∈ live failed base t) : n ∈ nodes base t := (mem_live.1 h).1

mutual

/-- The effect is the sum over the nodes that stand. -/
theorem effect_eq (failed : α → Bool) (f : α → ℤ) (base : List ℕ) : ∀ t : CallTree α,
    effect failed f t = ((live failed base t).map fun n => f n.2).sum
  | node a kids => by
    rw [effect, live]
    by_cases ha : failed a = true
    · simp [ha]
    · simp [ha, effectOf_eq failed f base 0 kids]

theorem effectOf_eq (failed : α → Bool) (f : α → ℤ) (base : List ℕ) (i : ℕ) :
    ∀ ts : List (CallTree α), effectOf failed f ts = ((liveOf failed base i ts).map fun n => f n.2).sum
  | [] => by simp [effectOf, liveOf]
  | t :: ts => by
    rw [effectOf, liveOf, List.map_append, List.sum_append, effect_eq failed f (base ++ [i]) t,
      effectOf_eq failed f base (i + 1) ts]

end

mutual

theorem live_sublist (failed : α → Bool) (base : List ℕ) : ∀ t : CallTree α,
    (live failed base t).Sublist (nodes base t)
  | node a kids => by
    rw [live, nodes]
    by_cases ha : failed a = true
    · simp [ha]
    · rw [if_neg ha]
      exact (liveOf_sublist failed base 0 kids).cons_cons _

theorem liveOf_sublist (failed : α → Bool) (base : List ℕ) (i : ℕ) : ∀ ts : List (CallTree α),
    (liveOf failed base i ts).Sublist (nodesOf base i ts)
  | [] => by simp [liveOf]
  | t :: ts => by
    rw [liveOf, nodesOf]
    exact (live_sublist failed _ t).append (liveOf_sublist failed base (i + 1) ts)

end

/-- A failed root leaves nothing. -/
theorem live_of_failed_root {failed : α → Bool} {base : List ℕ} {t : CallTree α}
    (h : failed t.root = true) : live failed base t = [] := by
  cases t with
  | node a kids =>
    rw [root] at h
    rw [live, if_pos h]

theorem root_mem (base : List ℕ) (t : CallTree α) : (base, t.root) ∈ nodes base t := by
  cases t
  rw [nodes]
  exact List.mem_cons_self

end CallTree

end Rollback
