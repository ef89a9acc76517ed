-- Edit scripts between two lists: what stays, what goes and what comes. The backtracking of
-- the table of common lengths gives a script between any two lists, and what stays in it is
-- a longest common subsequence.
import Mathlib

namespace EditScript

variable {α : Type}

/-! ## Scripts -/

inductive Edit (α : Type)
  | same (text : α)
  | add (text : α)
  | del (text : α)
deriving DecidableEq, Repr

def Edit.old? : Edit α → Option α
  | .same x => some x
  | .add _ => none
  | .del x => some x

def Edit.new? : Edit α → Option α
  | .same x => some x
  | .add x => some x
  | .del _ => none

def Edit.isSame : Edit α → Bool
  | .same _ => true
  | _ => false

/-- What a script goes out from. -/
def before (script : List (Edit α)) : List α := script.filterMap Edit.old?

/-- What a script leads to. -/
def after (script : List (Edit α)) : List α := script.filterMap Edit.new?

def sameCount (script : List (Edit α)) : ℕ := script.countP Edit.isSame

@[simp] theorem before_nil : before ([] : List (Edit α)) = [] := rfl

@[simp] theorem after_nil : after ([] : List (Edit α)) = [] := rfl

@[simp] theorem before_append (s t : List (Edit α)) : before (s ++ t) = before s ++ before t :=
  List.filterMap_append

@[simp] theorem after_append (s t : List (Edit α)) : after (s ++ t) = after s ++ after t :=
  List.filterMap_append

@[simp] theorem before_cons (e : Edit α) (s : List (Edit α)) :
    before (e :: s) = e.old?.toList ++ before s := by
  cases e <;> rfl

@[simp] theorem after_cons (e : Edit α) (s : List (Edit α)) :
    after (e :: s) = e.new?.toList ++ after s := by
  cases e <;> rfl

@[simp] theorem before_map_same (xs : List α) : before (xs.map .same) = xs := by
  induction xs <;> simp_all [Edit.old?]

@[simp] theorem after_map_same (xs : List α) : after (xs.map .same) = xs := by
  induction xs <;> simp_all [Edit.new?]

@[simp] theorem before_map_del (xs : List α) : before (xs.map .del) = xs := by
  induction xs <;> simp_all [Edit.old?]

@[simp] theorem after_map_del (xs : List α) : after (xs.map .del) = [] := by
  induction xs <;> simp_all [Edit.new?]

@[simp] theorem before_map_add (xs : List α) : before (xs.map .add) = [] := by
  induction xs <;> simp_all [Edit.old?]

@[simp] theorem after_map_add (xs : List α) : after (xs.map .add) = xs := by
  induction xs <;> simp_all [Edit.new?]

theorem sameCount_append (s t : List (Edit α)) :
    sameCount (s ++ t) = sameCount s + sameCount t := List.countP_append

theorem sameCount_map_same (xs : List α) : sameCount (xs.map .same) = xs.length := by
  unfold sameCount
  rw [List.countP_map]
  exact List.countP_eq_length.mpr fun _ _ => rfl

/-! ## Longest common subsequences -/

/-- The length of a longest common subsequence. -/
structure IsLongest (n : ℕ) (a b : List α) : Prop where
  reached : ∃ l : List α, l.Sublist a ∧ l.Sublist b ∧ l.length = n
  bound : ∀ l : List α, l.Sublist a → l.Sublist b → l.length ≤ n

theorem isLongest_nil_left (b : List α) : IsLongest 0 [] b where
  reached := ⟨[], .slnil, List.nil_sublist b, rfl⟩
  bound l hl _ := by rw [List.sublist_nil.mp hl]; rfl

theorem isLongest_nil_right (a : List α) : IsLongest 0 a [] where
  reached := ⟨[], List.nil_sublist a, .slnil, rfl⟩
  bound l _ hl := by rw [List.sublist_nil.mp hl]; rfl

theorem IsLongest.cons {n : ℕ} {a b : List α} (h : IsLongest n a b) (x : α) :
    IsLongest (n + 1) (x :: a) (x :: b) where
  reached := by
    obtain ⟨l, ha, hb, hlen⟩ := h.reached
    exact ⟨x :: l, ha.cons_cons x, hb.cons_cons x, by rw [List.length_cons, hlen]⟩
  bound l ha hb := by
    cases l with
    | nil => exact Nat.zero_le _
    | cons y l =>
      have := h.bound l ha.tail hb.tail
      rw [List.length_cons]
      omega

theorem IsLongest.append_left {n : ℕ} {a b : List α} (h : IsLongest n a b) (c : List α) :
    IsLongest (c.length + n) (c ++ a) (c ++ b) := by
  induction c with
  | nil => simpa using h
  | cons x c ih =>
    have := ih.cons x
    rwa [show (x :: c).length + n = c.length + n + 1 by rw [List.length_cons]; omega]

theorem IsLongest.reverse {n : ℕ} {a b : List α} (h : IsLongest n a b) :
    IsLongest n a.reverse b.reverse where
  reached := by
    obtain ⟨l, ha, hb, hlen⟩ := h.reached
    exact ⟨l.reverse, ha.reverse, hb.reverse, by rw [List.length_reverse, hlen]⟩
  bound l ha hb := by
    have := h.bound l.reverse (by simpa using ha.reverse) (by simpa using hb.reverse)
    rwa [List.length_reverse] at this

theorem IsLongest.append_right {n : ℕ} {a b : List α} (h : IsLongest n a b) (c : List α) :
    IsLongest (n + c.length) (a ++ c) (b ++ c) := by
  have := (h.reverse.append_left c.reverse).reverse
  rwa [List.reverse_append, List.reverse_reverse, List.reverse_append, List.reverse_reverse,
    List.reverse_reverse, List.length_reverse, Nat.add_comm] at this

/-- Two different first elements: one of them is not in a common subsequence. -/
theorem IsLongest.skip {m n : ℕ} {x y : α} {a b : List α} (hxy : x ≠ y)
    (hleft : IsLongest m a (y :: b)) (hright : IsLongest n (x :: a) b) :
    IsLongest (max m n) (x :: a) (y :: b) where
  reached := by
    rcases le_total n m with hle | hle
    · obtain ⟨l, ha, hb, hlen⟩ := hleft.reached
      exact ⟨l, ha.cons x, hb, by rw [hlen, max_eq_left hle]⟩
    · obtain ⟨l, ha, hb, hlen⟩ := hright.reached
      exact ⟨l, ha, hb.cons y, by rw [hlen, max_eq_right hle]⟩
  bound l ha hb := by
    cases ha with
    | cons _ ha => exact (hleft.bound l ha hb).trans (le_max_left _ _)
    | cons_cons _ ha =>
      cases hb with
      | cons _ hb => exact (hright.bound _ (ha.cons_cons x) hb).trans (le_max_right _ _)
      | cons_cons _ hb => exact absurd rfl hxy

/-! ## The table -/

section Table

variable [DecidableEq α]

/-- One row of the table, from the row below it; a cell belongs to a rest of the second list. -/
def cellRow (x : α) (below : List α → ℕ) : List α → ℕ
  | [] => 0
  | y :: ys => if x = y then below ys + 1 else max (below (y :: ys)) (cellRow x below ys)

/-- The cell of the table for a rest of either list. -/
def cell : List α → List α → ℕ
  | [] => fun _ => 0
  | x :: xs => cellRow x (cell xs)

theorem cell_cons_cons (x y : α) (xs ys : List α) : cell (x :: xs) (y :: ys) =
    if x = y then cell xs ys + 1 else max (cell xs (y :: ys)) (cell (x :: xs) ys) := rfl

theorem isLongest_cell (a b : List α) : IsLongest (cell a b) a b := by
  induction a generalizing b with
  | nil => exact isLongest_nil_left b
  | cons x xs ih =>
    induction b with
    | nil => exact isLongest_nil_right _
    | cons y ys ihrow =>
      rw [cell_cons_cons]
      by_cases hxy : x = y
      · subst hxy
        rw [if_pos rfl]
        exact (ih ys).cons x
      · rw [if_neg hxy]
        exact (ih (y :: ys)).skip hxy ihrow

/-- The way through one row, along the larger of the two cells; a removed element leads to the
row below. -/
def walkRow (x : α) (below : List α → List (Edit α)) (cellBelow cellHere : List α → ℕ) :
    List α → List (Edit α)
  | [] => .del x :: below []
  | y :: ys =>
    if x = y then .same x :: below ys
    else if cellHere ys ≤ cellBelow (y :: ys) then .del x :: below (y :: ys)
    else .add y :: walkRow x below cellBelow cellHere ys

/-- The backtracking of the table. -/
def walk : List α → List α → List (Edit α)
  | [] => fun b => b.map .add
  | x :: xs => walkRow x (walk xs) (cell xs) (cell (x :: xs))

theorem walk_cons_nil (x : α) (xs : List α) : walk (x :: xs) [] = .del x :: walk xs [] := rfl

theorem walk_cons_cons (x y : α) (xs ys : List α) : walk (x :: xs) (y :: ys) =
    if x = y then .same x :: walk xs ys
    else if cell (x :: xs) ys ≤ cell xs (y :: ys) then .del x :: walk xs (y :: ys)
    else .add y :: walk (x :: xs) ys := rfl

theorem before_walk (a b : List α) : before (walk a b) = a := by
  induction a generalizing b with
  | nil => exact before_map_add b
  | cons x xs ih =>
    induction b with
    | nil =>
      rw [walk_cons_nil]
      simp [ih, Edit.old?]
    | cons y ys ihrow =>
      rw [walk_cons_cons]
      split_ifs <;> simp [ih, ihrow, Edit.old?]

theorem after_walk (a b : List α) : after (walk a b) = b := by
  induction a generalizing b with
  | nil => exact after_map_add b
  | cons x xs ih =>
    induction b with
    | nil =>
      rw [walk_cons_nil]
      simp [ih, Edit.new?]
    | cons y ys ihrow =>
      rw [walk_cons_cons]
      split_ifs with hxy <;> simp [ih, ihrow, Edit.new?, hxy]

/-- What stays is as long as the table says. -/
theorem sameCount_walk (a b : List α) : sameCount (walk a b) = cell a b := by
  induction a generalizing b with
  | nil =>
    unfold walk sameCount
    rw [List.countP_map]
    exact List.countP_eq_zero.mpr fun _ _ h => nomatch h
  | cons x xs ih =>
    induction b with
    | nil =>
      rw [walk_cons_nil, sameCount, List.countP_cons_of_neg (by simp [Edit.isSame])]
      have hcell : cell (x :: xs) ([] : List α) = 0 := rfl
      have hnil : cell xs ([] : List α) = 0 := by cases xs <;> rfl
      rw [hcell, ← hnil]
      exact ih []
    | cons y ys ihrow =>
      rw [walk_cons_cons, cell_cons_cons]
      unfold sameCount at ih ihrow ⊢
      split_ifs with hxy hle
      · rw [List.countP_cons_of_pos rfl, ih]
      · rw [List.countP_cons_of_neg (by simp [Edit.isSame]), ih, max_eq_left hle]
      · rw [List.countP_cons_of_neg (by simp [Edit.isSame]), ihrow, max_eq_right (by omega)]

end Table

end EditScript
