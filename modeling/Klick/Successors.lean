-- Chains of things that replace each other. Where nothing has two successors and the chains come
-- to an end, every chain has exactly one last member.
import Mathlib.Logic.ExistsUnique
import Mathlib.Logic.Relation
import Mathlib.Data.Nat.Find

open Relation

namespace Successors

variable {α : Type} {next : α → α → Prop}

/-- Nothing follows. -/
def Last (next : α → α → Prop) (a : α) : Prop := ∀ b, ¬ next a b

/-- In a chain that rises towards a bound, there is a last member behind each one. -/
theorem exists_last {rank : α → ℕ} {bound : ℕ} (hrank : ∀ a b, next a b → rank a < rank b)
    (hbound : ∀ a b, next a b → rank b ≤ bound) (a : α) :
    ∃ z, ReflTransGen next a z ∧ Last next z := by
  induction hn : bound - rank a using Nat.strong_induction_on generalizing a with
  | _ n ih =>
    by_cases hlast : Last next a
    · exact ⟨a, .refl, hlast⟩
    · obtain ⟨b, hb⟩ : ∃ b, next a b := by simpa [Last] using hlast
      have hlt := hrank a b hb
      have hle := hbound a b hb
      obtain ⟨z, hz, hzlast⟩ := ih (bound - rank b) (by omega) b rfl
      exact ⟨z, .head hb hz, hzlast⟩

theorem Last.eq_of_reaches {a b : α} (h : Last next a) (hab : ReflTransGen next a b) : b = a := by
  rcases ReflTransGen.cases_head hab with rfl | ⟨c, hc, -⟩
  · rfl
  · exact absurd hc (h c)

/-- Members of a chain reach the same last members. -/
theorem reaches_last_iff (hfun : Relator.RightUnique next) {a b : α} (h : EqvGen next a b) {z : α}
    (hz : Last next z) : ReflTransGen next a z ↔ ReflTransGen next b z := by
  induction h with
  | rel a b hab =>
    constructor
    · intro haz
      rcases ReflTransGen.cases_head haz with rfl | ⟨c, hc, hcz⟩
      · exact absurd hab (hz b)
      · rwa [hfun hab hc]
    · exact .head hab
  | refl a => exact Iff.rfl
  | symm a b _ ih => exact ih.symm
  | trans a b c _ _ ihab ihbc => exact ihab.trans ihbc

theorem eqvGen_of_reaches {a b : α} (h : ReflTransGen next a b) : EqvGen next a b := by
  induction h with
  | refl => exact .refl a
  | tail _ hbc ih => exact .trans _ _ _ ih (.rel _ _ hbc)

/-- **Each chain has exactly one last member.** -/
theorem existsUnique_last (hfun : Relator.RightUnique next) {rank : α → ℕ} {bound : ℕ}
    (hrank : ∀ a b, next a b → rank a < rank b) (hbound : ∀ a b, next a b → rank b ≤ bound)
    (a : α) : ∃! z, EqvGen next a z ∧ Last next z := by
  obtain ⟨z, haz, hz⟩ := exists_last hrank hbound a
  refine ⟨z, ⟨eqvGen_of_reaches haz, hz⟩, ?_⟩
  rintro y ⟨hay, hy⟩
  have hyz : ReflTransGen next y z := (reaches_last_iff hfun hay hz).mp haz
  exact (hy.eq_of_reaches hyz).symm

end Successors
