-- Lines in a stream that arrives in pieces: what ends in a text, what is left
-- unfinished, and that cutting a stream anywhere gives the same lines.
import Mathlib.Data.List.TakeWhile

namespace LineBuffer

variable {α : Type*} [DecidableEq α]

/-! ## Cutting a text -/

/-- The first line that ends in a text and what comes after its end. -/
def nextLine (sep : α) (s : List α) : Option (List α × List α) :=
  if sep ∈ s then some (s.takeWhile (· ≠ sep), (s.dropWhile (· ≠ sep)).tail) else none

/-- The lines that end in a text, and the unfinished one after them. -/
def cut (sep : α) : List α → List (List α) × List α
  | [] => ([], [])
  | a :: s =>
    if a = sep then ([] :: (cut sep s).1, (cut sep s).2)
    else
      match (cut sep s).1 with
      | [] => ([], a :: (cut sep s).2)
      | l :: ls => ((a :: l) :: ls, (cut sep s).2)

/-- The lines that end in a text. -/
def lines (sep : α) (s : List α) : List (List α) := (cut sep s).1

/-- The line that a text leaves unfinished. -/
def unfinished (sep : α) (s : List α) : List α := (cut sep s).2

variable {sep : α}

@[simp] theorem lines_nil : lines sep [] = [] := rfl

@[simp] theorem unfinished_nil : unfinished sep [] = [] := rfl

@[simp] theorem lines_sep (s : List α) : lines sep (sep :: s) = [] :: lines sep s := by
  simp [lines, cut]

@[simp] theorem unfinished_sep (s : List α) : unfinished sep (sep :: s) = unfinished sep s := by
  simp [unfinished, cut]

/-- A text is its lines, each with its end, and what is unfinished. -/
theorem lines_unfinished (s : List α) :
    ((lines sep s).flatMap fun l => l ++ [sep]) ++ unfinished sep s = s := by
  induction s with
  | nil => rfl
  | cons a s ih =>
    unfold lines unfinished at *
    by_cases ha : a = sep
    · simp [cut, ha, ih]
    · cases hl : (cut sep s).1 with
      | nil => simpa [cut, ha, hl] using ih
      | cons l ls => simpa [cut, ha, hl] using ih

theorem sep_notMem_cut (s : List α) :
    (∀ l ∈ lines sep s, sep ∉ l) ∧ sep ∉ unfinished sep s := by
  induction s with
  | nil => simp
  | cons a s ih =>
    unfold lines unfinished at *
    by_cases ha : a = sep
    · simpa [cut, ha] using ih
    · cases hl : (cut sep s).1 with
      | nil => simpa [cut, ha, hl, Ne.symm ha] using ih.2
      | cons l ls =>
        rw [hl] at ih
        simpa [cut, ha, hl, Ne.symm ha, and_assoc] using ih

/-! ## One line after the other -/

theorem cut_line {l s : List α} (hl : sep ∉ l) :
    cut sep (l ++ sep :: s) = (l :: lines sep s, unfinished sep s) := by
  induction l with
  | nil => simp [cut, lines, unfinished]
  | cons a l ih =>
    have ha : a ≠ sep := fun h => hl (by simp [h])
    have hrest : sep ∉ l := fun h => hl (by simp [h])
    simp [cut, ha, ih hrest]

theorem lines_line {l s : List α} (hl : sep ∉ l) : lines sep (l ++ sep :: s) = l :: lines sep s := by
  unfold lines
  rw [cut_line hl]
  rfl

theorem unfinished_line {l s : List α} (hl : sep ∉ l) :
    unfinished sep (l ++ sep :: s) = unfinished sep s := by
  unfold unfinished
  rw [cut_line hl]
  rfl

/-- A text in which no line ends is unfinished. -/
theorem cut_open {s : List α} (hs : sep ∉ s) : cut sep s = ([], s) := by
  induction s with
  | nil => rfl
  | cons a s ih =>
    have ha : a ≠ sep := fun h => hs (by simp [h])
    have hrest : sep ∉ s := fun h => hs (by simp [h])
    simp [cut, ha, ih hrest]

theorem nextLine_eq_none {s : List α} (h : nextLine sep s = none) :
    lines sep s = [] ∧ unfinished sep s = s := by
  have hs : sep ∉ s := by
    intro hmem
    simp [nextLine, hmem] at h
  unfold lines unfinished
  rw [cut_open hs]
  exact ⟨rfl, rfl⟩

theorem eq_of_nextLine {s l rest : List α} (h : nextLine sep s = some (l, rest)) :
    s = l ++ sep :: rest ∧ sep ∉ l := by
  unfold nextLine at h
  split_ifs at h with hs
  obtain ⟨as, bs, rfl, has⟩ := List.eq_append_cons_of_mem hs
  have hall : ∀ a ∈ as, decide (a ≠ sep) = true := by
    intro a ha
    simp only [decide_eq_true_eq]
    intro hsep
    exact has (hsep ▸ ha)
  rw [List.takeWhile_append_of_pos hall, List.dropWhile_append_of_pos hall] at h
  simp only [ne_eq, not_true_eq_false, decide_false, Bool.false_eq_true, not_false_eq_true,
    List.takeWhile_cons_of_neg, List.dropWhile_cons_of_neg, List.append_nil, List.tail_cons,
    Option.some.injEq, Prod.mk.injEq] at h
  obtain ⟨rfl, rfl⟩ := h
  exact ⟨rfl, has⟩

theorem length_of_nextLine {s l rest : List α} (h : nextLine sep s = some (l, rest)) :
    rest.length < s.length := by
  rw [(eq_of_nextLine h).1]
  simp
  omega

theorem lines_of_nextLine {s l rest : List α} (h : nextLine sep s = some (l, rest)) :
    lines sep s = l :: lines sep rest := by
  rw [(eq_of_nextLine h).1]
  exact lines_line (eq_of_nextLine h).2

theorem unfinished_of_nextLine {s l rest : List α} (h : nextLine sep s = some (l, rest)) :
    unfinished sep s = unfinished sep rest := by
  rw [(eq_of_nextLine h).1]
  exact unfinished_line (eq_of_nextLine h).2

/-! ## A stream in pieces -/

/-- What ends in two pieces: what ends in the first, then what ends in what it left with the
second. -/
theorem cut_append (s t : List α) :
    lines sep (s ++ t) = lines sep s ++ lines sep (unfinished sep s ++ t) ∧
      unfinished sep (s ++ t) = unfinished sep (unfinished sep s ++ t) := by
  have hs := @lines_unfinished _ _ sep s
  have hsep := (@sep_notMem_cut _ _ sep s).1
  generalize hls : lines sep s = ls at hs hsep
  generalize unfinished sep s = u at hs ⊢
  subst hs
  clear hls
  induction ls with
  | nil => simp
  | cons l ls ih =>
    have hl : sep ∉ l := hsep l (by simp)
    have hrest : ∀ m ∈ ls, sep ∉ m := fun m hm => hsep m (by simp [hm])
    have hshape : ((l :: ls).flatMap fun m => m ++ [sep]) ++ u ++ t =
        l ++ sep :: ((ls.flatMap fun m => m ++ [sep]) ++ u ++ t) := by
      simp
    rw [hshape, lines_line hl, unfinished_line hl, (ih hrest).1, (ih hrest).2]
    exact ⟨rfl, rfl⟩

theorem lines_append (s t : List α) :
    lines sep (s ++ t) = lines sep s ++ lines sep (unfinished sep s ++ t) := (cut_append s t).1

theorem unfinished_append (s t : List α) :
    unfinished sep (s ++ t) = unfinished sep (unfinished sep s ++ t) := (cut_append s t).2

theorem unfinished_eq_self {s : List α} (h : lines sep s = []) : unfinished sep s = s := by
  simpa [h] using @lines_unfinished _ _ sep s

/-- A line that a text leaves unfinished begins the first line that ends after it. -/
theorem length_unfinished_le {s t l : List α} {ls : List (List α)}
    (h : lines sep (unfinished sep s ++ t) = l :: ls) : (unfinished sep s).length ≤ l.length := by
  have hopen := (@sep_notMem_cut _ _ sep s).2
  generalize unfinished sep s = u at h hopen
  have hwhole := @lines_unfinished _ _ sep (u ++ t)
  rw [h, List.flatMap_cons, List.append_assoc, List.append_assoc] at hwhole
  -- Else the end of the first line would stand inside the unfinished text.
  rcases List.append_eq_append_iff.mp hwhole with ⟨c, hu, hc⟩ | ⟨c, hl, -⟩
  · cases c with
    | nil => simp [hu]
    | cons a c =>
      simp only [List.cons_append, List.cons.injEq] at hc
      exact absurd (by simp [hu, hc.1]) hopen
  · simp [hl]

end LineBuffer
