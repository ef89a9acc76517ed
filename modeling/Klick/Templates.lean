-- Texts with holes that are all filled with the same list, and the replacement of a list
-- wherever it stands in another.
import Mathlib

namespace Templates

variable {α : Type}

/-- A text of pieces; `none` is a hole. -/
abbrev Template (α : Type) := List (Option (List α))

/-- The text whose holes have been filled. -/
def fill (t : Template α) (s : List α) : List α := t.flatMap fun p => p.getD s

@[simp] theorem fill_nil (s : List α) : fill [] s = [] := rfl

@[simp] theorem fill_none (t : Template α) (s : List α) : fill (none :: t) s = s ++ fill t s := rfl

@[simp] theorem fill_some (l : List α) (t : Template α) (s : List α) :
    fill (some l :: t) s = l ++ fill t s := rfl

/-- How much stands before the first hole. -/
def firstHole : Template α → Option ℕ
  | [] => none
  | none :: _ => some 0
  | some l :: t => (firstHole t).map (l.length + ·)

/-- How much stands outside of the holes. -/
def literal (t : Template α) : ℕ := (fill t []).length

theorem literal_some (l : List α) (t : Template α) :
    literal (some l :: t) = l.length + literal t := by
  unfold literal
  rw [fill_some, List.length_append]

theorem firstHole_le {t : Template α} {p : ℕ} (h : firstHole t = some p) : p ≤ literal t := by
  induction t generalizing p with
  | nil => cases h
  | cons q t ih =>
    cases q with
    | none =>
      cases h
      exact Nat.zero_le _
    | some l =>
      obtain ⟨p', hp', rfl⟩ := Option.map_eq_some_iff.mp h
      rw [literal_some]
      exact Nat.add_le_add_left (ih hp') _

/-- Without a hole it does not matter what the holes are filled with. -/
theorem fill_of_firstHole_none {t : Template α} (h : firstHole t = none) (s s' : List α) :
    fill t s = fill t s' := by
  induction t with
  | nil => rfl
  | cons p t ih =>
    cases p with
    | none => cases h
    | some l =>
      rw [fill_some, fill_some, ih (Option.map_eq_none_iff.mp h)]

theorem length_fill_of_none {t : Template α} (h : firstHole t = none) (s : List α) :
    (fill t s).length = literal t := by
  unfold literal
  rw [fill_of_firstHole_none h s []]

/-- What stands before the first hole, and the rest after it. -/
theorem fill_of_firstHole {t : Template α} {p : ℕ} (h : firstHole t = some p) :
    ∃ before after, before.length = p ∧ ∀ s, fill t s = before ++ (s ++ fill after s) := by
  induction t generalizing p with
  | nil => cases h
  | cons q t ih =>
    cases q with
    | none =>
      cases h
      exact ⟨[], t, rfl, fun s => rfl⟩
    | some l =>
      obtain ⟨p', hp', rfl⟩ := Option.map_eq_some_iff.mp h
      obtain ⟨before, after, hlength, hfill⟩ := ih hp'
      refine ⟨l ++ before, after, by rw [List.length_append, hlength], fun s => ?_⟩
      rw [fill_some, hfill, List.append_assoc]

/-- A text with a hole tells what fills it from all of the same length. -/
theorem eq_of_fill {t : Template α} {p : ℕ} (h : firstHole t = some p) {s s' : List α}
    (hlength : s.length = s'.length) (hfill : fill t s = fill t s') : s = s' := by
  obtain ⟨before, after, -, heq⟩ := fill_of_firstHole h
  rw [heq, heq] at hfill
  exact (List.append_inj (List.append_cancel_left hfill) hlength).1

theorem length_fill (t : Template α) {s s' : List α} (hlength : s.length = s'.length) :
    (fill t s).length = (fill t s').length := by
  induction t with
  | nil => rfl
  | cons p t ih => cases p <;> simp [hlength, ih]

/-! ## Blanks at the ends -/

section Blanks

variable (blank : α → Bool)

/-- The template without the blanks before it. -/
def dropBlanks : Template α → Template α
  | [] => []
  | none :: t => none :: t
  | some l :: t =>
    if l.dropWhile blank = [] then dropBlanks t else some (l.dropWhile blank) :: t

def reversed (t : Template α) : Template α := t.reverse.map (·.map List.reverse)

/-- The template without the blanks around it. -/
def trimmed (t : Template α) : Template α :=
  reversed (dropBlanks blank (reversed (dropBlanks blank t)))

/-- A list that starts with no blank. -/
def Starts (s : List α) : Prop := ∃ a r, s = a :: r ∧ blank a = false

variable {blank}

theorem Starts.dropWhile {s : List α} (h : Starts blank s) (r : List α) :
    (s ++ r).dropWhile blank = s ++ r := by
  obtain ⟨a, q, rfl, ha⟩ := h
  simp [ha]

theorem fill_dropBlanks {s : List α} (h : Starts blank s) (t : Template α) :
    (fill t s).dropWhile blank = fill (dropBlanks blank t) s := by
  induction t with
  | nil => rfl
  | cons p t ih =>
    cases p with
    | none => exact h.dropWhile _
    | some l =>
      unfold dropBlanks
      rw [fill_some, List.dropWhile_append]
      split_ifs with hl hempty hempty
      · exact ih
      · simp [hempty] at hl
      · simp [hempty] at hl
      · rfl

theorem fill_append (t t' : Template α) (s : List α) : fill (t ++ t') s = fill t s ++ fill t' s := by
  simp [fill]

theorem fill_reversed (t : Template α) (s : List α) :
    (fill t s).reverse = fill (reversed t) s.reverse := by
  induction t with
  | nil => rfl
  | cons p t ih =>
    unfold reversed at ih ⊢
    rw [List.reverse_cons, List.map_append, fill_append, ← ih]
    cases p <;> simp [fill]

/-- Blanks around a filled text are blanks around its template. -/
theorem fill_trimmed {s : List α} (h : Starts blank s) (h' : Starts blank s.reverse)
    (t : Template α) :
    (((fill t s).dropWhile blank).reverse.dropWhile blank).reverse = fill (trimmed blank t) s := by
  rw [fill_dropBlanks h, fill_reversed, fill_dropBlanks h', fill_reversed, List.reverse_reverse]
  rfl

end Blanks

/-! ## Replacing a list -/

section Replace

variable [DecidableEq α]

/-- `text.split(old).join(new)`, where `old` is not empty. -/
def replaceAll (old new : List α) : ℕ → List α → List α
  | 0, t => t
  | _, [] => []
  | n + 1, a :: t =>
    if old.isPrefixOf (a :: t) then new ++ replaceAll old new n ((a :: t).drop old.length)
    else a :: replaceAll old new n t

/-- The list stands in the filled text only where the holes were: not at a place of the
pieces between them. -/
def OnlyThere (s : List α) : Template α → Prop
  | [] => True
  | none :: t => OnlyThere s t
  | some l :: t => (∀ q, q <:+ l → q ≠ [] → ¬ s <+: q ++ fill t s) ∧ OnlyThere s t

theorem replaceAll_front {old new : List α} (hold : old ≠ []) {n : ℕ} {rest : List α}
    (hn : (old ++ rest).length ≤ n) :
    ∃ m, rest.length ≤ m ∧
      replaceAll old new n (old ++ rest) = new ++ replaceAll old new m rest := by
  obtain ⟨a, q, rfl⟩ := List.exists_cons_of_ne_nil hold
  simp only [List.cons_append, List.length_cons, List.length_append] at hn ⊢
  obtain ⟨m, rfl⟩ : ∃ m, n = m + 1 := ⟨n - 1, by omega⟩
  refine ⟨m, by omega, ?_⟩
  have hprefix : (a :: q).isPrefixOf (a :: (q ++ rest)) = true := by
    rw [List.isPrefixOf_iff_prefix]
    exact ⟨rest, rfl⟩
  rw [replaceAll, if_pos hprefix, List.length_cons, List.drop_succ_cons, List.drop_left]

theorem replaceAll_literal {old new l rest : List α}
    (h : ∀ q, q <:+ l → q ≠ [] → ¬ old <+: q ++ rest) {n : ℕ} (hn : (l ++ rest).length ≤ n) :
    ∃ m, rest.length ≤ m ∧
      replaceAll old new n (l ++ rest) = l ++ replaceAll old new m rest := by
  induction l generalizing n with
  | nil => exact ⟨n, by simpa using hn, rfl⟩
  | cons a l ih =>
    simp only [List.cons_append, List.length_cons, List.length_append] at hn
    obtain ⟨k, rfl⟩ : ∃ k, n = k + 1 := ⟨n - 1, by omega⟩
    have hno : ¬ old.isPrefixOf (a :: (l ++ rest)) = true := by
      rw [List.isPrefixOf_iff_prefix]
      exact h (a :: l) List.suffix_rfl (List.cons_ne_nil a l)
    obtain ⟨m, hm, heq⟩ := ih (fun q hq => h q (hq.trans (List.suffix_cons a l)))
      (n := k) (by rw [List.length_append]; omega)
    refine ⟨m, hm, ?_⟩
    rw [List.cons_append, replaceAll, if_neg hno, heq, List.cons_append]

/-- What stands in the holes only is replaced in the holes only. -/
theorem replaceAll_fill {s new : List α} (hs : s ≠ []) {t : Template α} (h : OnlyThere s t) {n : ℕ}
    (hn : (fill t s).length ≤ n) : replaceAll s new n (fill t s) = fill t new := by
  induction t generalizing n with
  | nil => cases n <;> rfl
  | cons p t ih =>
    cases p with
    | none =>
      rw [fill_none] at hn
      obtain ⟨m, hm, heq⟩ := @replaceAll_front _ _ s new hs _ _ hn
      rw [fill_none, heq, ih h hm, fill_none]
    | some l =>
      rw [fill_some] at hn
      obtain ⟨m, hm, heq⟩ := @replaceAll_literal _ _ s new _ _ h.1 _ hn
      rw [fill_some, heq, ih h.2 hm, fill_some]

omit [DecidableEq α] in
/-- Nothing that ends in another letter reaches into a run of a letter and ends there. -/
theorem prefix_of_prefix_run {old before rest : List α} {c : α} (hlast : old.getLast? ≠ some c)
    {k : ℕ} (hk : old.length ≤ k) (h : old <+: before ++ (List.replicate k c ++ rest)) :
    old <+: before := by
  by_cases hle : old.length ≤ before.length
  · exact List.prefix_of_prefix_length_le h (List.prefix_append _ _) hle
  · exfalso
    apply hlast
    have hpos : 0 < old.length := by omega
    have hget := h.getElem (i := old.length - 1) (by omega)
    rw [List.getElem_append_right (by omega), List.getElem_append_left (by
      rw [List.length_replicate]; omega), List.getElem_replicate] at hget
    rw [List.getLast?_eq_getElem?, List.getElem?_eq_getElem (by omega), hget]

/-- Before a run of a letter that the list neither starts nor ends with, and that is as long
as the list, the replacement does what it would do if the text ended there. -/
theorem replaceAll_run {old new before rest : List α} {c : α} (hhead : old.head? ≠ some c)
    (hlast : old.getLast? ≠ some c) (hold : old ≠ []) {n k : ℕ} (hk : old.length ≤ k)
    (hn : (before ++ (List.replicate k c ++ rest)).length ≤ n) :
    ∃ more, replaceAll old new n (before ++ (List.replicate k c ++ rest)) =
      replaceAll old new n before ++ c :: more := by
  have hlength := List.length_pos_iff.mpr hold
  induction n generalizing before with
  | zero =>
    simp only [List.length_append, List.length_replicate] at hn
    omega
  | succ n ih =>
    cases before with
    | nil =>
      obtain ⟨k, rfl⟩ : ∃ j, k = j + 1 := ⟨k - 1, by omega⟩
      obtain ⟨a, q, rfl⟩ := List.exists_cons_of_ne_nil hold
      have hne : a ≠ c := fun h => hhead (by rw [h]; rfl)
      refine ⟨replaceAll (a :: q) new n (List.replicate k c ++ rest), ?_⟩
      simp [replaceAll, List.replicate_succ, List.isPrefixOf, hne]
    | cons a before =>
      simp only [List.cons_append, List.length_cons] at hn
      by_cases hprefix : old <+: a :: before
      · have hfull : old <+: a :: (before ++ (List.replicate k c ++ rest)) :=
          hprefix.trans (List.prefix_append (a :: before) _)
        have hle : old.length ≤ (a :: before).length := hprefix.length_le
        obtain ⟨more, heq⟩ := @ih ((a :: before).drop old.length) (by
          rw [List.length_append, List.length_drop, List.length_cons]
          rw [List.length_append] at hn
          omega)
        refine ⟨more, ?_⟩
        rw [List.cons_append, replaceAll, if_pos (List.isPrefixOf_iff_prefix.mpr hfull),
          replaceAll, if_pos (List.isPrefixOf_iff_prefix.mpr hprefix), ← List.cons_append,
          List.drop_append_of_le_length hle, heq, List.append_assoc]
      · have hfull : ¬ old <+: a :: (before ++ (List.replicate k c ++ rest)) := fun h =>
          hprefix (@prefix_of_prefix_run _ old (a :: before) rest c hlast k hk h)
        obtain ⟨more, heq⟩ := @ih before (by omega)
        refine ⟨more, ?_⟩
        rw [List.cons_append, replaceAll, if_neg (by rwa [List.isPrefixOf_iff_prefix]),
          replaceAll, if_neg (by rwa [List.isPrefixOf_iff_prefix]), heq, List.cons_append]

end Replace

end Templates
