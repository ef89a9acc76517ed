-- Loops whose state gets smaller in each round: they end on every start, and what a round
-- does carries over to the whole run.
import Mathlib

/-- The rounds of a loop: each ends it with a result or goes on with a smaller state. -/
structure Loop (σ ρ : Type) where
  step : σ → ρ ⊕ σ
  size : σ → ℕ
  shrinks : ∀ s s', step s = .inr s' → size s' < size s

namespace Loop

variable {σ ρ : Type} (l : Loop σ ρ)

/-- The result after so many rounds at most. -/
def after : ℕ → σ → Option ρ
  | 0, _ => none
  | n + 1, s =>
    match l.step s with
    | .inl r => some r
    | .inr s' => after n s'

theorem after_of_inl {s : σ} {r : ρ} (h : l.step s = .inl r) (n : ℕ) :
    l.after (n + 1) s = some r := by
  rw [after, h]

theorem after_of_inr {s s' : σ} (h : l.step s = .inr s') (n : ℕ) :
    l.after (n + 1) s = l.after n s' := by
  rw [after, h]

/-- The loop ends before as many rounds as the state is large, and one more. -/
theorem isSome_after {n : ℕ} {s : σ} (h : l.size s < n) : (l.after n s).isSome = true := by
  induction n generalizing s with
  | zero => omega
  | succ n ih =>
    cases hstep : l.step s with
    | inl r => rw [l.after_of_inl hstep, Option.isSome_some]
    | inr s' =>
      have := l.shrinks s s' hstep
      rw [l.after_of_inr hstep]
      exact ih (by omega)

/-- The result of the loop. -/
def run (s : σ) : ρ := (l.after (l.size s + 1) s).get (l.isSome_after (Nat.lt_succ_self _))

/-- More rounds change nothing. -/
theorem after_eq_run {n : ℕ} {s : σ} (h : l.size s < n) : l.after n s = some (l.run s) := by
  have hmore {m n : ℕ} {s : σ} {r : ρ} (hmn : m ≤ n) (hr : l.after m s = some r) :
      l.after n s = some r := by
    induction m generalizing n s with
    | zero => cases hr
    | succ m ih =>
      obtain ⟨n, rfl⟩ : ∃ j, n = j + 1 := ⟨n - 1, by omega⟩
      cases hstep : l.step s with
      | inl r' =>
        rw [l.after_of_inl hstep] at hr ⊢
        exact hr
      | inr s' =>
        rw [l.after_of_inr hstep] at hr ⊢
        exact ih (by omega) hr
  exact hmore h (Option.some_get _).symm

theorem run_of_inl {s : σ} {r : ρ} (h : l.step s = .inl r) : l.run s = r := by
  have hrun := l.after_eq_run (Nat.lt_succ_self (l.size s))
  rw [l.after_of_inl h] at hrun
  exact (Option.some.inj hrun).symm

theorem run_of_inr {s s' : σ} (h : l.step s = .inr s') : l.run s = l.run s' := by
  have hsize := l.shrinks s s' h
  have hrun := l.after_eq_run (Nat.lt_succ_of_lt hsize)
  have hrun' := l.after_eq_run (Nat.lt_succ_of_lt (Nat.lt_succ_self (l.size s)))
  rw [l.after_of_inr h, l.after_eq_run (Nat.lt_succ_of_lt hsize)] at hrun'
  exact (Option.some.inj hrun').symm

end Loop
