-- Limits over a sliding window: how many of a sequence of times an interval as long as
-- the window holds, and when the sequences of one limit are among those of another.
import Mathlib

namespace SlidingWindow

/-! ## Intervals as long as the window -/

/-- Any two of the times lie less than a window apart. -/
def Short (window : ℤ) (I : ℤ → Bool) : Prop := ∀ s t, I s → I t → t - window < s

/-- No interval as long as the window holds more than `limit` of the times. -/
def Within (limit window : ℤ) (times : List ℤ) : Prop :=
  ∀ I, Short window I → times.countP I ≤ limit

theorem short_after (window a : ℤ) : Short window fun t => a < t && t ≤ a + window := by
  intro s t hs ht
  simp only [Bool.and_eq_true, decide_eq_true_eq] at hs ht
  omega

theorem short_from (window a : ℤ) : Short window fun t => a ≤ t && t < a + window := by
  intro s t hs ht
  simp only [Bool.and_eq_true, decide_eq_true_eq] at hs ht
  omega

theorem within_nil {limit : ℤ} (h : 0 ≤ limit) (window : ℤ) : Within limit window [] := by
  intro I _
  simpa using h

/-- One more time, with room for it in the window before it. -/
theorem within_snoc {limit window now : ℤ} {times : List ℤ} (h : Within limit window times)
    (hroom : times.countP (now - window < ·) < limit) : Within limit window (times ++ [now]) := by
  intro I hI
  rw [List.countP_append]
  by_cases hnow : I now
  · have hle : times.countP I ≤ times.countP (now - window < ·) := by
      apply List.countP_mono_left
      intro s _ hs
      exact decide_eq_true (hI s now hs hnow)
    simp only [List.countP_singleton, if_pos hnow]
    omega
  · simpa [List.countP_singleton, hnow] using h I hI

theorem within_of_prefix {limit window : ℤ} {first rest : List ℤ}
    (h : Within limit window (first ++ rest)) : Within limit window first := by
  intro I hI
  have := h I hI
  rw [List.countP_append] at this
  omega

/-- The last time has room in the window before it. -/
theorem room_of_within {limit window now : ℤ} {times : List ℤ} (hwindow : 0 < window)
    (hle : ∀ t ∈ times, t ≤ now) (h : Within limit window (times ++ [now])) :
    times.countP (now - window < ·) < limit := by
  have hall := h _ (short_after window (now - window))
  have heq : times.countP (fun t => now - window < t && t ≤ now - window + window) =
      times.countP (now - window < ·) := by
    apply List.countP_congr
    intro t ht
    simp [hle t ht]
  rw [List.countP_append, heq] at hall
  simp only [List.countP_singleton, sub_add_cancel, le_refl, decide_true, Bool.and_true,
    decide_eq_true_eq, sub_lt_self_iff, if_pos hwindow] at hall
  omega

/-! ## One limit against another -/

theorem countP_le_add {α : Type} {p q r : α → Bool} (h : ∀ x, p x → q x ∨ r x) (xs : List α) :
    xs.countP p ≤ xs.countP q + xs.countP r := by
  induction xs with
  | nil => simp
  | cons x xs ih =>
    have hx := h x
    simp only [List.countP_cons]
    split_ifs <;> simp_all <;> omega

/-- An interval of several windows. -/
theorem countP_windows {limit window : ℤ} {times : List ℤ} (h : Within limit window times)
    (a : ℤ) (n : ℕ) :
    times.countP (fun t => a ≤ t && t < a + n * window) ≤ n * limit := by
  induction n with
  | zero =>
    have hnone : times.countP (fun t => a ≤ t && t < a + (0 : ℕ) * window) = 0 := by
      rw [List.countP_eq_zero]
      intro t _
      simp only [Nat.cast_zero, Bool.and_eq_true, decide_eq_true_eq]
      omega
    rw [hnone]
    simp
  | succ n ih =>
    have hlast := h _ (short_from window (a + n * window))
    have hsplit : times.countP (fun t => a ≤ t && t < a + (n + 1 : ℕ) * window) ≤
        times.countP (fun t => a ≤ t && t < a + n * window) +
          times.countP (fun t => a + n * window ≤ t && t < a + n * window + window) := by
      apply countP_le_add
      intro t ht
      have hexpand : a + ((n + 1 : ℕ) : ℤ) * window = a + n * window + window := by
        rw [Nat.cast_succ]
        ring
      simp only [Bool.and_eq_true, decide_eq_true_eq] at ht ⊢
      omega
    have hexpand : ((n + 1 : ℕ) : ℤ) * limit = n * limit + limit := by
      rw [Nat.cast_succ]
      ring
    rw [hexpand]
    omega

/-- A time before which no other of the interval lies. -/
theorem exists_first {times : List ℤ} {I : ℤ → Bool} (h : times.countP I ≠ 0) :
    ∃ m, I m ∧ ∀ t ∈ times, I t → m ≤ t := by
  obtain ⟨t, ht, hI⟩ : ∃ t ∈ times, I t := by
    by_contra hnone
    push Not at hnone
    exact h (List.countP_eq_zero.mpr hnone)
  obtain ⟨m, hm, hmin⟩ := (times.toFinset.filter (I ·)).exists_min_image id
    ⟨t, Finset.mem_filter.mpr ⟨List.mem_toFinset.mpr ht, hI⟩⟩
  refine ⟨m, (Finset.mem_filter.mp hm).2, fun s hs hsI => ?_⟩
  exact hmin s (Finset.mem_filter.mpr ⟨List.mem_toFinset.mpr hs, hsI⟩)

/-- As many windows as the smaller limit fits into the larger one cover its window. -/
theorem Within.of_windows {limit window limit' window' : ℤ} {times : List ℤ}
    (h : Within limit' window' times) (hlimit : 0 ≤ limit) (hlimit' : 0 < limit')
    (hle : window ≤ limit / limit' * window') : Within limit window times := by
  intro I hI
  by_cases hnone : times.countP I = 0
  · rw [hnone]
    exact_mod_cast hlimit
  obtain ⟨m, hm, hfirst⟩ := exists_first hnone
  obtain ⟨n, hn⟩ := Int.eq_ofNat_of_zero_le (Int.ediv_nonneg hlimit hlimit'.le)
  have hcover : times.countP I ≤ times.countP (fun t => m ≤ t && t < m + n * window') := by
    apply List.countP_mono_left
    intro t ht htI
    have hlow := hfirst t ht htI
    have hhigh := hI m t hm htI
    rw [hn] at hle
    simp only [Bool.and_eq_true, decide_eq_true_eq]
    omega
  have hcount := countP_windows h m n
  have hfit : n * limit' ≤ limit := by
    rw [← hn]
    exact Int.ediv_mul_le limit hlimit'.ne'
  omega

/-- Bursts of `limit` times, a window apart. -/
def bursts (limit : ℕ) (window : ℤ) (n : ℕ) : List ℤ :=
  (List.range n).flatMap fun j : ℕ => List.replicate limit ((j : ℤ) * window)

theorem bursts_succ (limit : ℕ) (window : ℤ) (n : ℕ) :
    bursts limit window (n + 1) =
      bursts limit window n ++ List.replicate limit (n * window) := by
  simp [bursts, List.range_succ]

theorem length_bursts (limit : ℕ) (window : ℤ) (n : ℕ) :
    (bursts limit window n).length = n * limit := by
  simp [bursts]

theorem mem_bursts {limit : ℕ} {window : ℤ} {n : ℕ} {t : ℤ} (h : t ∈ bursts limit window n) :
    ∃ j : ℕ, j < n ∧ t = j * window := by
  obtain ⟨j, hj, ht⟩ := List.mem_flatMap.mp h
  exact ⟨j, List.mem_range.mp hj, List.eq_of_mem_replicate ht⟩

theorem bursts_sorted (limit : ℕ) {window : ℤ} (hwindow : 0 < window) (n : ℕ) :
    (bursts limit window n).Pairwise (· ≤ ·) := by
  induction n with
  | zero => exact .nil
  | succ n ih =>
    rw [bursts_succ]
    refine List.pairwise_append.mpr ⟨ih, List.pairwise_replicate.mpr (.inr le_rfl), ?_⟩
    intro s hs t ht
    obtain ⟨j, hj, rfl⟩ := mem_bursts hs
    rw [List.eq_of_mem_replicate ht]
    exact mul_le_mul_of_nonneg_right (by exact_mod_cast hj.le) hwindow.le

/-- An interval as long as the window meets one burst at most. -/
theorem within_bursts (limit : ℕ) {window : ℤ} (hwindow : 0 < window) (n : ℕ) :
    Within limit window (bursts limit window n) := by
  induction n with
  | zero => exact within_nil (by positivity) window
  | succ n ih =>
    intro I hI
    rw [bursts_succ, List.countP_append, List.countP_replicate]
    by_cases hlast : I (n * window)
    · have hnone : (bursts limit window n).countP I = 0 := by
        rw [List.countP_eq_zero]
        intro t ht htI
        obtain ⟨j, hj, rfl⟩ := mem_bursts ht
        have hapart := hI _ _ htI hlast
        have hmul : ((j : ℤ) + 1) * window ≤ n * window :=
          mul_le_mul_of_nonneg_right (by exact_mod_cast hj) hwindow.le
        have hexpand : ((j : ℤ) + 1) * window = j * window + window := by ring
        omega
      simp [hnone, hlast]
    · simpa [hlast] using ih I hI

/-- **The sequences of one limit are among those of another exactly if as many of its windows
as it fits into the other cover the other's window.** -/
theorem within_imp_iff {limit window limit' window' : ℤ} (hlimit : 0 ≤ limit)
    (hlimit' : 0 < limit') (hwindow' : 0 < window') :
    (∀ times : List ℤ, times.Pairwise (· ≤ ·) → Within limit' window' times →
      Within limit window times) ↔ window ≤ limit / limit' * window' := by
  constructor
  · intro h
    by_contra hlt
    obtain ⟨l, rfl⟩ := Int.eq_ofNat_of_zero_le hlimit'.le
    obtain ⟨n, hn⟩ := Int.eq_ofNat_of_zero_le (Int.ediv_nonneg hlimit hlimit'.le)
    have hbursts := h _ (bursts_sorted l hwindow' (n + 1)) (within_bursts l hwindow' (n + 1))
    have hshort : Short window fun t => 0 ≤ t && t ≤ n * window' := by
      intro s t hs ht
      simp only [Bool.and_eq_true, decide_eq_true_eq] at hs ht
      rw [hn] at hlt
      omega
    have hall : (bursts l window' (n + 1)).countP (fun t => 0 ≤ t && t ≤ n * window') =
        (n + 1) * l := by
      rw [← length_bursts l window', List.countP_eq_length]
      intro t ht
      obtain ⟨j, hj, rfl⟩ := mem_bursts ht
      have hlow : 0 ≤ (j : ℤ) * window' := by positivity
      have hhigh : (j : ℤ) * window' ≤ n * window' :=
        mul_le_mul_of_nonneg_right (by exact_mod_cast Nat.lt_succ_iff.mp hj) hwindow'.le
      simp [hlow, hhigh]
    have hcount := hbursts _ hshort
    rw [hall] at hcount
    have hfits := Int.lt_ediv_add_one_mul_self limit hlimit'
    rw [hn] at hfits
    push_cast at hcount hfits
    omega
  · intro hle times _ h
    exact h.of_windows hlimit hlimit' hle

end SlidingWindow
