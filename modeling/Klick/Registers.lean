-- Registers with revisions: each key holds the value of the newest write, in
-- whatever order and however often the writes arrive.
import Mathlib

/-- A write to a key. -/
structure Write (K V : Type) where
  key : K
  rev : ℤ
  value : V

namespace Write

variable {K V : Type} [DecidableEq K]

/-- What a key holds. -/
def at? (rows : List (Write K V)) (k : K) : Option (Write K V) := rows.find? fun w => w.key = k

/-- A write takes effect on a new key, and on an old one where it is newer; `merge` says what it
makes of the old value. -/
def put (merge : V → V → V) (rows : List (Write K V)) (w : Write K V) : List (Write K V) :=
  match rows with
  | [] => [w]
  | x :: xs =>
    if x.key = w.key then
      (if x.rev < w.rev then { w with value := merge x.value w.value } else x) :: xs
    else x :: put merge xs w

variable {merge : V → V → V} {rows : List (Write K V)} {w x : Write K V} {k : K}

@[simp] theorem at?_nil : at? ([] : List (Write K V)) k = none := rfl

theorem at?_key (h : at? rows k = some x) : x.key = k :=
  of_decide_eq_true (List.find?_some h :)

/-- The write that a key holds after a write to it. -/
def newer (merge : V → V → V) (old : Option (Write K V)) (w : Write K V) : Write K V :=
  match old with
  | none => w
  | some x => if x.rev < w.rev then { w with value := merge x.value w.value } else x

theorem at?_put : at? (put merge rows w) k =
    if k = w.key then some (newer merge (at? rows k) w) else at? rows k := by
  induction rows with
  | nil =>
    by_cases hk : k = w.key
    · subst hk
      simp [put, at?, newer]
    · simp [put, at?, hk, Ne.symm hk]
  | cons y ys ih =>
    unfold put
    by_cases hy : y.key = w.key
    · by_cases hk : k = w.key
      · subst hk
        by_cases hrev : y.rev < w.rev <;> simp [at?, newer, hy, hrev]
      · have hyk : y.key ≠ k := fun h => hk (h.symm.trans hy)
        have hwk : w.key ≠ k := Ne.symm hk
        by_cases hrev : y.rev < w.rev <;> simp [at?, hy, hk, hrev, hwk]
    · rw [if_neg hy]
      by_cases hyk : y.key = k
      · have hk : k ≠ w.key := fun h => hy (hyk.trans h)
        simp [at?, hyk, hk]
      · have h1 : at? (y :: put merge ys w) k = at? (put merge ys w) k := by simp [at?, hyk]
        have h2 : at? (y :: ys) k = at? ys k := by simp [at?, hyk]
        rw [h1, h2, ih]

/-- Several writes, in order. -/
def putAll (merge : V → V → V) (rows : List (Write K V)) (ws : List (Write K V)) :
    List (Write K V) :=
  ws.foldl (put merge) rows

/-! ## Convergence -/

/-- What a key holds is its newest write, in the revision and the value. -/
def Newest (ws : List (Write K V)) (k : K) : Option (Write K V) → Prop
  | none => ∀ w ∈ ws, w.key ≠ k
  | some x => x ∈ ws ∧ x.key = k ∧ ∀ w ∈ ws, w.key = k → w.rev ≤ x.rev

omit [DecidableEq K] in
theorem Newest.of_same {ws vs : List (Write K V)} (hsame : ∀ w, w ∈ ws ↔ w ∈ vs)
    {a : Option (Write K V)} (h : Newest ws k a) : Newest vs k a := by
  cases a with
  | none => exact fun w hw => h w ((hsame w).mpr hw)
  | some x => exact ⟨(hsame x).mp h.1, h.2.1, fun w hw => h.2.2 w ((hsame w).mpr hw)⟩

/-- Writes of one key and revision are the same write. -/
def Distinct (ws : List (Write K V)) : Prop :=
  ∀ w ∈ ws, ∀ x ∈ ws, w.key = x.key → w.rev = x.rev → w = x

omit [DecidableEq K] in
theorem Newest.unique {ws vs : List (Write K V)} (hd : Distinct ws) (hsame : ∀ w, w ∈ ws ↔ w ∈ vs)
    {a b : Option (Write K V)} (ha : Newest ws k a) (hb : Newest vs k b) : a = b := by
  cases a with
  | none =>
    cases b with
    | none => rfl
    | some y => exact absurd hb.2.1 (ha y ((hsame y).mpr hb.1))
  | some x =>
    cases b with
    | none => exact absurd ha.2.1 (hb x ((hsame x).mp ha.1))
    | some y =>
      have h1 := ha.2.2 y ((hsame y).mpr hb.1) hb.2.1
      have h2 := hb.2.2 x ((hsame x).mp ha.1) ha.2.1
      rw [hd x ha.1 y ((hsame y).mpr hb.1) (ha.2.1.trans hb.2.1.symm) (le_antisymm h2 h1)]

/-- What a merge keeps of the old value is what the first write brought. -/
theorem at?_putAll_kept {W : Type} {part : V → W} (hkeep : ∀ a b, part (merge a b) = part a)
    (ws : List (Write K V)) : ∀ {rows : List (Write K V)} {x : Write K V}, at? rows k = some x →
      ∃ y, at? (putAll merge rows ws) k = some y ∧ part y.value = part x.value := by
  induction ws with
  | nil => exact fun h => ⟨_, h, rfl⟩
  | cons w ws ih =>
    intro rows x h
    by_cases hk : k = w.key
    · have hput : at? (put merge rows w) k = some (newer merge (some x) w) := by
        rw [at?_put, if_pos hk, h]
      obtain ⟨y, hy, hpart⟩ := ih hput
      refine ⟨y, hy, hpart.trans ?_⟩
      by_cases hrev : x.rev < w.rev
      · simp [newer, hrev, hkeep]
      · simp [newer, hrev]
    · have hput : at? (put merge rows w) k = some x := by
        rw [at?_put, if_neg hk, h]
      exact ih hput

/-- Where every write makes the same of the old values, a key that was free holds its newest
write. -/
theorem newest_putAll {rows : List (Write K V)} (hfree : at? rows k = none) (ws : List (Write K V))
    (hmerge : ∀ w ∈ ws, ∀ x ∈ ws, w.key = x.key → merge x.value w.value = w.value) :
    Newest ws k (at? (putAll merge rows ws) k) := by
  induction ws using List.reverseRecOn with
  | nil =>
    change Newest [] k (at? rows k)
    rw [hfree]
    exact fun w hw => absurd hw List.not_mem_nil
  | append_singleton ws w ih =>
    have hih := ih fun a ha b hb => hmerge a (List.mem_append_left _ ha) b (List.mem_append_left _ hb)
    have hput : putAll merge rows (ws ++ [w]) = put merge (putAll merge rows ws) w := by
      simp [putAll]
    rw [hput, at?_put]
    by_cases hk : k = w.key
    · rw [if_pos hk]
      cases hold : at? (putAll merge rows ws) k with
      | none =>
        rw [hold] at hih
        refine ⟨by simp [newer], hk.symm, ?_⟩
        intro v hv hvk
        rcases List.mem_append.mp hv with hv | hv
        · exact absurd hvk (hih v hv)
        · rw [List.mem_singleton.mp hv]
          simp [newer]
      | some x =>
        rw [hold] at hih
        obtain ⟨hx, hxk, hmax⟩ := hih
        by_cases hrev : x.rev < w.rev
        · have hvalue : merge x.value w.value = w.value :=
            hmerge w (by simp) x (by simp [hx]) (hk.symm.trans hxk.symm)
          have hnew : newer merge (some x) w = w := by
            simp [newer, hrev, hvalue]
          rw [hnew]
          refine ⟨by simp, hk.symm, ?_⟩
          intro v hv hvk
          rcases List.mem_append.mp hv with hv | hv
          · exact (hmax v hv hvk).trans hrev.le
          · rw [List.mem_singleton.mp hv]
        · have hnew : newer merge (some x) w = x := by
            simp [newer, hrev]
          rw [hnew]
          refine ⟨by simp [hx], hxk, ?_⟩
          intro v hv hvk
          rcases List.mem_append.mp hv with hv | hv
          · exact hmax v hv hvk
          · rw [List.mem_singleton.mp hv]
            omega
    · rw [if_neg hk]
      cases hold : at? (putAll merge rows ws) k with
      | none =>
        rw [hold] at hih
        intro v hv
        rcases List.mem_append.mp hv with hv | hv
        · exact hih v hv
        · rw [List.mem_singleton.mp hv]
          exact Ne.symm hk
      | some x =>
        rw [hold] at hih
        obtain ⟨hx, hxk, hmax⟩ := hih
        refine ⟨by simp [hx], hxk, ?_⟩
        intro v hv hvk
        rcases List.mem_append.mp hv with hv | hv
        · exact hmax v hv hvk
        · rw [List.mem_singleton.mp hv] at hvk
          exact absurd hvk.symm hk

end Write
