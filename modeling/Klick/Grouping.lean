-- Maps that are filled in one pass over a list, where each item changes the value of its group:
-- what a group holds in the end, and what the values add up to.
import Klick.OrderedMap

namespace Js.OrderedMap

variable {K V α : Type} [DecidableEq K]

/-- A new value at a key from the value there, or from a first one. -/
def upsert (m : OrderedMap K V) (k : K) (first : V) (f : V → V) : OrderedMap K V :=
  m.set k (f ((m.get k).getD first))

/-- Each item changes the value of its group. -/
def groupInto (first : V) (key : α → K) (f : V → α → V) (m : OrderedMap K V) (xs : List α) :
    OrderedMap K V :=
  xs.foldl (fun m x => m.upsert (key x) first fun v => f v x) m

theorem get_upsert (m : OrderedMap K V) (j k : K) (first : V) (f : V → V) :
    (m.upsert k first f).get j = if j = k then some (f ((m.get k).getD first)) else m.get j :=
  get_set m j k _

/-- The items of a group. -/
def groupOf (key : α → K) (k : K) (xs : List α) : List α := xs.filter fun x => key x = k

theorem groupOf_cons (key : α → K) (k : K) (x : α) (xs : List α) :
    groupOf key k (x :: xs) = if key x = k then x :: groupOf key k xs else groupOf key k xs := by
  simp [groupOf, List.filter_cons]

/-- **A group holds what its items make of its first value.** -/
theorem get_groupInto (first : V) (key : α → K) (f : V → α → V) (m : OrderedMap K V) (xs : List α)
    (k : K) : (groupInto first key f m xs).get k =
      if groupOf key k xs = [] then m.get k
      else some ((groupOf key k xs).foldl f ((m.get k).getD first)) := by
  unfold groupInto
  induction xs generalizing m with
  | nil => simp [groupOf]
  | cons x xs ih =>
    rw [List.foldl_cons, ih, groupOf_cons, get_upsert]
    by_cases hk : key x = k
    · subst hk
      simp only [if_true, reduceCtorEq, if_false, List.foldl_cons, Option.getD_some]
      split_ifs with hnil
      · rw [hnil]
        rfl
      · rfl
    · rw [if_neg hk, if_neg (Ne.symm hk)]

/-- A group that has a value holds what its items make of it. -/
theorem get_groupInto_of_some {first : V} {key : α → K} {f : V → α → V} {m : OrderedMap K V}
    {k : K} {v : V} (h : m.get k = some v) (xs : List α) :
    (groupInto first key f m xs).get k = some ((groupOf key k xs).foldl f v) := by
  rw [get_groupInto, h]
  split_ifs with hnil
  · rw [hnil]
    rfl
  · rfl

/-- **The values add up to what they were and what the items give**, when an item adds the same to
every value, and a first value weighs nothing. -/
theorem sum_groupInto {first : V} {key : α → K} {f : V → α → V} {w : V → ℕ} {gain : α → ℕ}
    (hfirst : w first = 0) (hgain : ∀ v x, w (f v x) = w v + gain x) (m : OrderedMap K V)
    (xs : List α) : (groupInto first key f m xs).sum w = m.sum w + (xs.map gain).sum := by
  unfold groupInto
  induction xs generalizing m with
  | nil => simp
  | cons x xs ih =>
    rw [List.foldl_cons, ih, List.map_cons, List.sum_cons]
    have hrest : ∀ j, j ≠ key x →
        (m.upsert (key x) first fun v => f v x).weightAt w j = m.weightAt w j := by
      intro j hj
      rw [weightAt, weightAt, get_upsert, if_neg hj]
    have hstep := sum_step hrest
    have hnew : (m.upsert (key x) first fun v => f v x).weightAt w (key x) =
        m.weightAt w (key x) + gain x := by
      rw [weightAt, weightAt, get_upsert, if_pos rfl]
      cases m.get (key x) with
      | none => simp [hgain, hfirst]
      | some v => simp [hgain]
    omega

/-- What the items of a list leave in a value of a kind that is only changed. -/
theorem foldl_weight {f : V → α → V} {w : V → ℕ} {gain : α → ℕ}
    (hgain : ∀ v x, w (f v x) = w v + gain x) (v : V) (xs : List α) :
    w (xs.foldl f v) = w v + (xs.map gain).sum := by
  induction xs generalizing v with
  | nil => simp
  | cons x xs ih =>
    rw [List.foldl_cons, ih, hgain, List.map_cons, List.sum_cons]
    omega

end Js.OrderedMap
