-- The first entries of a list by a key, as loops with a `Set` of seen keys
-- keep them, and sums over lists without repetition.
import Mathlib

namespace Js

section Firsts

variable {α κ : Type} [DecidableEq κ] (key : α → κ)

/-- The entries whose key was not met before. -/
def firstsBy : List κ → List α → List α
  | _, [] => []
  | seen, a :: as => if key a ∈ seen then firstsBy seen as else a :: firstsBy (key a :: seen) as

theorem mem_firstsBy {seen : List κ} {as : List α} {a : α} :
    a ∈ firstsBy key seen as ↔ key a ∉ seen ∧ as.find? (fun b => key b = key a) = some a := by
  induction as generalizing seen with
  | nil => simp [firstsBy]
  | cons b as ih =>
    unfold firstsBy
    by_cases hb : key b = key a
    · by_cases hs : key b ∈ seen
      · simp [hs, ih, hb ▸ hs]
      · have ha : key a ∉ seen := hb ▸ hs
        simp [ih, hb, ha, eq_comm]
    · have hab : a ≠ b := fun h => hb (by rw [h])
      by_cases hs : key b ∈ seen
      · simp [hs, ih, hb]
      · simp [hs, ih, hb, hab, Ne.symm hb]

theorem firstsBy_nodup (seen : List κ) (as : List α) : ((firstsBy key seen as).map key).Nodup := by
  induction as generalizing seen with
  | nil => simp [firstsBy]
  | cons a as ih =>
    unfold firstsBy
    by_cases hs : key a ∈ seen
    · simpa [hs] using ih seen
    · simp only [hs, if_false, List.map_cons, List.nodup_cons, List.mem_map, not_exists, not_and]
      refine ⟨fun b hb hkey => ((mem_firstsBy key).mp hb).1 ?_, ih _⟩
      rw [hkey]
      exact List.mem_cons_self

/-- Where the key tells the entries apart, nothing is lost but repetitions. -/
theorem mem_firstsBy_of_inj {as : List α} {a : α}
    (hinj : ∀ b ∈ as, ∀ c ∈ as, key b = key c → b = c) : a ∈ firstsBy key [] as ↔ a ∈ as := by
  rw [mem_firstsBy]
  constructor
  · rintro ⟨-, h⟩
    exact List.mem_of_find?_eq_some h
  · intro ha
    refine ⟨List.not_mem_nil, ?_⟩
    cases hf : as.find? fun b => key b = key a with
    | none => exact absurd (List.find?_eq_none.mp hf a ha) (by simp)
    | some b =>
      have hkey := of_decide_eq_true (List.find?_some hf :)
      rw [hinj b (List.mem_of_find?_eq_some hf) a ha hkey]

/-- `[...new Set(as)]` -/
def distinct (as : List κ) : List κ := firstsBy id [] as

theorem mem_distinct {as : List κ} {a : κ} : a ∈ distinct as ↔ a ∈ as :=
  mem_firstsBy_of_inj id fun _ _ _ _ h => h

theorem distinct_nodup (as : List κ) : (distinct as).Nodup := by
  have h := firstsBy_nodup id [] as
  rwa [List.map_id] at h

end Firsts

/-- A sum over entries that are not repeated depends on those that count only. -/
theorem sum_map_eq_of_nodup {α : Type} [DecidableEq α] {as bs : List α} (f : α → ℤ)
    (ha : as.Nodup) (hb : bs.Nodup) (hab : ∀ a ∈ as, a ∈ bs ∨ f a = 0)
    (hba : ∀ b ∈ bs, b ∈ as ∨ f b = 0) : (as.map f).sum = (bs.map f).sum := by
  have hinter : ∀ {xs ys : List α}, (∀ x ∈ xs, x ∈ ys ∨ f x = 0) →
      ∑ x ∈ xs.toFinset ∩ ys.toFinset, f x = ∑ x ∈ xs.toFinset, f x := by
    intro xs ys h
    apply Finset.sum_subset Finset.inter_subset_left
    intro x hx hn
    rcases h x (List.mem_toFinset.mp hx) with hy | h0
    · exact absurd (Finset.mem_inter.mpr ⟨hx, List.mem_toFinset.mpr hy⟩) hn
    · exact h0
  rw [← List.sum_toFinset f ha, ← List.sum_toFinset f hb, ← hinter hab, ← hinter hba,
    Finset.inter_comm]

/-- A sum to which one entry alone contributes. -/
theorem sum_map_single {α : Type} {as : List α} {a : α} (g : α → ℕ) (hnd : as.Nodup) (ha : a ∈ as)
    (h : ∀ b ∈ as, b ≠ a → g b = 0) : (as.map g).sum = g a := by
  induction as with
  | nil => cases ha
  | cons b as ih =>
    rw [List.nodup_cons] at hnd
    rw [List.map_cons, List.sum_cons]
    by_cases hb : b = a
    · subst hb
      have hrest : (as.map g).sum = 0 := by
        rw [List.sum_eq_zero_iff]
        intro m hm
        obtain ⟨c, hc, rfl⟩ := List.mem_map.mp hm
        exact h c (List.mem_cons_of_mem _ hc) fun hcb => hnd.1 (hcb ▸ hc)
      rw [hrest, add_zero]
    · have ha : a ∈ as := (List.mem_cons.mp ha).resolve_left (Ne.symm hb)
      rw [h b List.mem_cons_self hb, zero_add,
        ih hnd.2 ha fun c hc => h c (List.mem_cons_of_mem _ hc)]

end Js
