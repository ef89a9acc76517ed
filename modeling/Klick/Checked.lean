-- Checks that end a function early with an error, one after the other.
import Mathlib.Tactic.Common

namespace Js

variable {ε α β : Type}

/-- `if (!ok) throw e` -/
def check (ok : Bool) (e : ε) : Except ε Unit := if ok then .ok () else .error e

/-- `if (v === null) throw e`, and the value otherwise. -/
def orRefuse (v : Option α) (e : ε) : Except ε α :=
  match v with
  | some a => .ok a
  | none => .error e

/-- What comes after a step has its result. -/
theorem bind_eq_ok {x : Except ε α} {f : α → Except ε β} {b : β} :
    (x >>= f) = .ok b ↔ ∃ a, x = .ok a ∧ f a = .ok b := by
  cases x with
  | error e => exact ⟨fun h => (nomatch h), fun ⟨_, h, _⟩ => (nomatch h)⟩
  | ok a =>
    constructor
    · intro h
      exact ⟨a, rfl, h⟩
    · rintro ⟨_, h, hb⟩
      cases h
      exact hb

theorem mapError_eq_ok {ε' : Type} {x : Except ε α} {f : ε → ε'} {a : α} :
    x.mapError f = .ok a ↔ x = .ok a := by
  cases x with
  | error e => exact ⟨fun h => (nomatch h), fun h => (nomatch h)⟩
  | ok b => exact ⟨fun h => congrArg _ (Except.ok.inj h), fun h => congrArg _ (Except.ok.inj h)⟩

theorem map_eq_ok {x : Except ε α} {f : α → β} {b : β} :
    x.map f = .ok b ↔ ∃ a, x = .ok a ∧ f a = b := by
  cases x with
  | error e => exact ⟨fun h => (nomatch h), fun ⟨_, h, _⟩ => (nomatch h)⟩
  | ok a =>
    constructor
    · intro h
      exact ⟨a, rfl, Except.ok.inj h⟩
    · rintro ⟨_, h, rfl⟩
      cases h
      rfl

theorem pure_eq_ok {a b : α} : (pure a : Except ε α) = .ok b ↔ a = b :=
  ⟨Except.ok.inj, congrArg _⟩

theorem check_eq_ok {ok : Bool} {e : ε} {u : Unit} : check ok e = .ok u ↔ ok = true := by
  cases ok
  · exact ⟨fun h => (nomatch h), fun h => (nomatch h)⟩
  · exact ⟨fun _ => rfl, fun _ => rfl⟩

theorem check_bind {ok : Bool} {e : ε} {f : Unit → Except ε α} {a : α} :
    (check ok e >>= f) = .ok a ↔ ok = true ∧ f () = .ok a := by
  rw [bind_eq_ok]
  constructor
  · rintro ⟨_, h, ha⟩
    exact ⟨check_eq_ok.1 h, ha⟩
  · rintro ⟨h, ha⟩
    exact ⟨(), check_eq_ok.2 h, ha⟩

theorem orRefuse_eq_ok {v : Option α} {e : ε} {a : α} : orRefuse v e = .ok a ↔ v = some a := by
  cases v with
  | none => exact ⟨fun h => (nomatch h), fun h => (nomatch h)⟩
  | some b => exact ⟨fun h => congrArg some (Except.ok.inj h), fun h => by cases h; rfl⟩

theorem orRefuse_bind {v : Option α} {e : ε} {f : α → Except ε β} {b : β} :
    (orRefuse v e >>= f) = .ok b ↔ ∃ a, v = some a ∧ f a = .ok b := by
  rw [bind_eq_ok]
  constructor
  · rintro ⟨a, h, ha⟩
    exact ⟨a, orRefuse_eq_ok.1 h, ha⟩
  · rintro ⟨a, h, ha⟩
    exact ⟨a, orRefuse_eq_ok.2 h, ha⟩

end Js
