-- Intervals of integers that follow each other without gap or overlap, as the classes
-- of a scale do.
import Mathlib

namespace Intervals

variable {α : Type} (lo hi : α → ℤ)

/-- Each interval starts where the one before it ends: from `a` on, up to before `b`. -/
inductive Spans : ℤ → List α → ℤ → Prop where
  | nil (a : ℤ) : Spans a [] a
  | cons {a b : ℤ} {x : α} {xs : List α} (hlo : lo x = a) (hhi : a ≤ hi x)
      (rest : Spans (hi x + 1) xs b) : Spans a (x :: xs) b

variable {lo hi}

theorem Spans.le {a b : ℤ} {xs : List α} (h : Spans lo hi a xs b) : a ≤ b := by
  induction h with
  | nil a => exact le_rfl
  | cons hlo hhi rest ih => omega

/-- No interval reaches outside. -/
theorem Spans.bounds {a b : ℤ} {xs : List α} (h : Spans lo hi a xs b) {x : α} (hx : x ∈ xs) :
    a ≤ lo x ∧ lo x ≤ hi x ∧ hi x < b := by
  induction h with
  | nil a => cases hx
  | cons hlo hhi rest ih =>
    have hle := rest.le
    rcases List.mem_cons.mp hx with rfl | hmem
    · omega
    · have := ih hmem
      omega

theorem spans_cons_iff {a b : ℤ} {x : α} {xs : List α} :
    Spans lo hi a (x :: xs) b ↔ lo x = a ∧ a ≤ hi x ∧ Spans lo hi (hi x + 1) xs b := by
  constructor
  · rintro (_ | ⟨hlo, hhi, rest⟩)
    exact ⟨hlo, hhi, rest⟩
  · rintro ⟨hlo, hhi, rest⟩
    exact .cons hlo hhi rest

theorem spans_nil_iff {a b : ℤ} : Spans lo hi a ([] : List α) b ↔ a = b := by
  constructor
  · rintro ⟨⟩
    rfl
  · rintro rfl
    exact .nil a

/-- The last interval ends where the list does. -/
theorem Spans.getLast {a b : ℤ} {xs : List α} (h : Spans lo hi a xs b) (hne : xs ≠ []) :
    xs.getLast?.map hi = some (b - 1) := by
  induction h with
  | nil a => exact absurd rfl hne
  | @cons a b x xs hlo hhi rest ih =>
    cases xs with
    | nil =>
      rw [spans_nil_iff] at rest
      simp only [List.getLast?_singleton, Option.map_some, Option.some.injEq]
      omega
    | cons y ys =>
      rw [List.getLast?_cons_cons]
      exact ih (List.cons_ne_nil y ys)

/-- As many intervals as numbers: each has one. -/
theorem Spans.singletons {a b : ℤ} {xs : List α} (h : Spans lo hi a xs b) (hb : b ≤ a + xs.length)
    {k : ℕ} {x : α} (hx : xs[k]? = some x) : lo x = a + k ∧ hi x = a + k := by
  have hlength : ∀ {a b : ℤ} {ys : List α}, Spans lo hi a ys b → a + ys.length ≤ b := by
    intro a b ys hys
    induction hys with
    | nil a => simp
    | cons hlo hhi rest ih =>
      simp only [List.length_cons]
      push_cast
      omega
  induction h generalizing k with
  | nil a => simp at hx
  | @cons a b y ys hlo hhi rest ih =>
    have hrest := hlength rest
    simp only [List.length_cons] at hb
    push_cast at hb
    cases k with
    | zero =>
      have hy : y = x := by simpa using hx
      subst hy
      simp only [Nat.cast_zero, add_zero]
      omega
    | succ k =>
      have := ih (by omega) (by simpa using hx)
      push_cast
      omega

variable (lo hi) in
/-- The place of the interval in which a number lies. -/
def placeOf (s : ℤ) (xs : List α) : Option ℕ := xs.findIdx? fun x => lo x ≤ s && s ≤ hi x

/-- A number between the ends lies in the interval at its place. -/
theorem Spans.has_place {a b s : ℤ} {xs : List α} (h : Spans lo hi a xs b) (ha : a ≤ s)
    (hb : s < b) : ∃ k x, placeOf lo hi s xs = some k ∧ xs[k]? = some x ∧ lo x ≤ s ∧ s ≤ hi x := by
  induction h with
  | nil a => omega
  | @cons a b x xs hlo hhi rest ih =>
    by_cases hin : s ≤ hi x
    · refine ⟨0, x, ?_, rfl, by omega, hin⟩
      have hlo' : lo x ≤ s := by omega
      simp [placeOf, List.findIdx?_cons, hlo', hin]
    · obtain ⟨k, y, hk, hy, hlow, hhigh⟩ := ih (by omega) hb
      refine ⟨k + 1, y, ?_, by simpa using hy, hlow, hhigh⟩
      unfold placeOf at hk ⊢
      simp [List.findIdx?_cons, hin, hk]

/-- Of two numbers in intervals of the list the smaller is not in the later interval. -/
theorem Spans.places_le {a b s t : ℤ} {xs : List α} (h : Spans lo hi a xs b) {j k : ℕ} {x y : α}
    (hx : xs[j]? = some x) (hs : lo x ≤ s) (hy : xs[k]? = some y) (ht : t ≤ hi y)
    (hst : s ≤ t) : j ≤ k := by
  induction h generalizing j k with
  | nil a => simp at hx
  | @cons a b z zs hlo hhi rest ih =>
    cases j with
    | zero => exact Nat.zero_le k
    | succ j =>
      have hx' : zs[j]? = some x := by simpa using hx
      cases k with
      | zero =>
        have hz : z = y := by simpa using hy
        have hbound := (rest.bounds (List.mem_of_getElem? hx')).1
        subst hz
        omega
      | succ k => exact Nat.succ_le_succ (ih hx' (by simpa using hy))

/-- A number lies in one interval only. -/
theorem Spans.unique {a b s : ℤ} {xs : List α} (h : Spans lo hi a xs b) {j k : ℕ} {x y : α}
    (hx : xs[j]? = some x) (hxs : lo x ≤ s ∧ s ≤ hi x) (hy : xs[k]? = some y)
    (hys : lo y ≤ s ∧ s ≤ hi y) : j = k :=
  Nat.le_antisymm (h.places_le hx hxs.1 hy hys.2 le_rfl) (h.places_le hy hys.1 hx hxs.2 le_rfl)

end Intervals
