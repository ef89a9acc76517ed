-- Runs of a system whose parties take steps in any order, and readings of a place
-- that others may write in between: a place counts its writings, so that a reading of
-- its present count holds what the place holds.
import Mathlib

namespace Interleaving

/-! ## Runs -/

section Runs

variable {σ ι : Type} (step : σ → ι → Option σ)

/-- The state after steps one after the other, if each of them can be taken. -/
def run : σ → List ι → Option σ
  | s, [] => some s
  | s, a :: as => (step s a).bind fun t => run t as

/-- Every step of a run meets a condition on the state before it. -/
def Along (ok : σ → ι → Prop) : σ → List ι → Prop
  | _, [] => True
  | s, a :: as => ok s a ∧ ∀ t, step s a = some t → Along ok t as

instance decidableAlong (ok : σ → ι → Prop) [∀ s a, Decidable (ok s a)] :
    ∀ s as, Decidable (Along step ok s as)
  | _, [] => .isTrue trivial
  | s, a :: as =>
    match h : step s a with
    | none => decidable_of_iff (ok s a) (by simp [Along, h])
    | some t =>
      have := decidableAlong ok t as
      decidable_of_iff (ok s a ∧ Along step ok t as) (by simp [Along, h])

theorem run_append (s : σ) (as bs : List ι) :
    run step s (as ++ bs) = (run step s as).bind fun t => run step t bs := by
  induction as generalizing s with
  | nil => rfl
  | cons a as ih =>
    rw [List.cons_append, run, run, Option.bind_assoc]
    simp only [ih]

theorem along_true (s : σ) (as : List ι) : Along step (fun _ _ => True) s as := by
  induction as generalizing s with
  | nil => trivial
  | cons a as ih => exact ⟨trivial, fun t _ => ih t⟩

variable {step}

/-- **What every step keeps, a run keeps.** -/
theorem run_keeps {ok : σ → ι → Prop} {I : σ → Prop}
    (hstep : ∀ s a t, I s → ok s a → step s a = some t → I t) {as : List ι} {s t : σ} (hs : I s)
    (halong : Along step ok s as) (hrun : run step s as = some t) : I t := by
  induction as generalizing s with
  | nil =>
    cases hrun
    exact hs
  | cons a as ih =>
    obtain ⟨u, hu, hrest⟩ := Option.bind_eq_some_iff.mp hrun
    exact ih (hstep s a u hs halong.1 hu) (halong.2 u hu) hrest

/-- A condition that implies another in every state that can be reached. -/
theorem along_imp {ok keeps : σ → ι → Prop} {I : σ → Prop}
    (hstep : ∀ s a t, I s → step s a = some t → I t) (himp : ∀ s a, I s → ok s a → keeps s a)
    {as : List ι} {s : σ} (hs : I s) (h : Along step ok s as) : Along step keeps s as := by
  induction as generalizing s with
  | nil => trivial
  | cons a as ih => exact ⟨himp s a hs h.1, fun t ht => ih (hstep s a t hs ht) (h.2 t ht)⟩

/-- Two conditions that agree while a run was kept so far hold along the same runs. -/
theorem along_iff {ok keeps : σ → ι → Prop} {I : σ → Prop}
    (hstep : ∀ s a t, I s → step s a = some t → (ok s a ↔ keeps s a) ∧ (keeps s a → I t))
    {as : List ι} {s t : σ} (hs : I s) (hrun : run step s as = some t) :
    Along step ok s as ↔ Along step keeps s as := by
  induction as generalizing s with
  | nil => exact Iff.rfl
  | cons a as ih =>
    obtain ⟨u, hu, hrest⟩ := Option.bind_eq_some_iff.mp hrun
    obtain ⟨hiff, hnext⟩ := hstep s a u hs hu
    have htail : keeps s a → (Along step ok u as ↔ Along step keeps u as) :=
      fun hk => ih (hnext hk) hrest
    constructor
    · rintro ⟨hok, hall⟩
      refine ⟨hiff.mp hok, ?_⟩
      intro v hv
      obtain rfl : u = v := Option.some.inj (hu.symm.trans hv)
      exact (htail (hiff.mp hok)).mp (hall u hu)
    · rintro ⟨hk, hall⟩
      refine ⟨hiff.mpr hk, ?_⟩
      intro v hv
      obtain rfl : u = v := Option.some.inj (hu.symm.trans hv)
      exact (htail hk).mpr (hall u hu)

end Runs

/-! ## Readings -/

/-- What a place holds, and how often it was written. -/
structure Place (α : Type) where
  value : α
  writes : ℕ
deriving DecidableEq

namespace Place

variable {α : Type}

def write (x : Place α) (v : α) : Place α := ⟨v, x.writes + 1⟩

@[simp] theorem write_value (x : Place α) (v : α) : (x.write v).value = v := rfl

@[simp] theorem write_writes (x : Place α) (v : α) : (x.write v).writes = x.writes + 1 := rfl

/-- A reading that the place gave: at its present count, it is what the place holds. -/
structure Gave (x r : Place α) : Prop where
  le : r.writes ≤ x.writes
  eq : r.writes = x.writes → r.value = x.value

theorem Gave.refl (x : Place α) : x.Gave x := ⟨le_rfl, fun _ => rfl⟩

/-- A writing makes every reading before it an old one. -/
theorem Gave.write {x r : Place α} (h : x.Gave r) (v : α) : (x.write v).Gave r where
  le := h.le.trans (Nat.le_succ _)
  eq heq := by
    have := h.le
    rw [write_writes] at heq
    omega

/-- A reading still holds where nothing was written since. -/
theorem Gave.value_eq {x r : Place α} (h : x.Gave r) (hcount : r.writes = x.writes) :
    x.value = r.value := (h.eq hcount).symm

end Place

section Places

variable {K α : Type}

/-- The places after a statement that writes some of them. -/
def writeWhere (m : K → Place α) (f : K → α → Option α) : K → Place α := fun k =>
  match f k (m k).value with
  | some v => (m k).write v
  | none => m k

/-- Readings of all places outlive a statement. -/
theorem Place.Gave.writeWhere {m : K → Place α} {k : K} {r : Place α} (h : (m k).Gave r)
    (f : K → α → Option α) : (writeWhere m f k).Gave r := by
  unfold Interleaving.writeWhere
  split
  · exact h.write _
  · exact h

variable [DecidableEq K]

/-- The places after one of them is written. -/
def writeAt (m : K → Place α) (k : K) (v : α) : K → Place α :=
  writeWhere m fun j _ => if j = k then some v else none

@[simp] theorem writeAt_self (m : K → Place α) (k : K) (v : α) :
    writeAt m k v k = (m k).write v := by
  simp [writeAt, writeWhere]

theorem writeAt_of_ne {m : K → Place α} {k j : K} (h : j ≠ k) (v : α) :
    writeAt m k v j = m j := by
  simp [writeAt, writeWhere, h]

theorem Place.Gave.writeAt {m : K → Place α} {j : K} {r : Place α} (h : (m j).Gave r) (k : K)
    (v : α) : (writeAt m k v j).Gave r := h.writeWhere _

end Places

/-! ## Rows -/

section Rows

variable {ρ : Type}

/-- The rows after an update of some of them. -/
def updateRows (p : ρ → Bool) (f : ρ → ρ) (rows : List ρ) : List ρ :=
  rows.map fun r => if p r then f r else r

theorem mem_updateRows {p : ρ → Bool} {f : ρ → ρ} {rows : List ρ} {r : ρ} :
    r ∈ updateRows p f rows ↔ (∃ s ∈ rows, p s = true ∧ f s = r) ∨ (r ∈ rows ∧ p r = false) := by
  unfold updateRows
  rw [List.mem_map]
  constructor
  · rintro ⟨s, hs, rfl⟩
    by_cases hp : p s = true
    · exact .inl ⟨s, hs, hp, (if_pos hp).symm⟩
    · rw [if_neg hp]
      exact .inr ⟨hs, Bool.eq_false_of_not_eq_true hp⟩
  · rintro (⟨s, hs, hp, rfl⟩ | ⟨hr, hp⟩)
    · exact ⟨s, hs, if_pos hp⟩
    · exact ⟨r, hr, by simp [hp]⟩

/-- An update leaves what it does not set. -/
theorem map_updateRows {κ : Type} {p : ρ → Bool} {f : ρ → ρ} {g : ρ → κ}
    (h : ∀ r, g (f r) = g r) (rows : List ρ) : (updateRows p f rows).map g = rows.map g := by
  unfold updateRows
  rw [List.map_map]
  apply List.map_congr_left
  intro r _
  by_cases hp : p r = true
  · rw [Function.comp_apply, if_pos hp, h]
  · rw [Function.comp_apply, if_neg hp]

/-- An update that leaves a property of the rows commutes with their choice by it. -/
theorem filter_updateRows {q : ρ → Bool} (p : ρ → Bool) {f : ρ → ρ} (h : ∀ r, q (f r) = q r)
    (rows : List ρ) : (updateRows p f rows).filter q = updateRows p f (rows.filter q) := by
  unfold updateRows
  rw [List.filter_map]
  congr 1
  apply List.filter_congr
  intro r _
  by_cases hp : p r = true
  · rw [Function.comp_apply, if_pos hp, h]
  · rw [Function.comp_apply, if_neg hp]

/-- An update changes nothing exactly when it changes no row. -/
theorem updateRows_eq_self_iff {p : ρ → Bool} {f : ρ → ρ} {rows : List ρ} :
    updateRows p f rows = rows ↔ ∀ r ∈ rows, p r = true → f r = r := by
  unfold updateRows
  conv_lhs => rhs; rw [← List.map_id rows]
  rw [List.map_inj_left]
  constructor
  · intro h r hr hp
    simpa [hp] using h r hr
  · intro h r hr
    by_cases hp : p r = true
    · simp [hp, h r hr hp]
    · simp [hp]

variable {κ : Type} [DecidableEq κ]

/-- `insert … on conflict do update`: the row of a key is replaced, or a new one is added. -/
def upsert (key : ρ → κ) (rows : List ρ) (x : ρ) : List ρ :=
  if ∃ r ∈ rows, key r = key x then rows.map fun r => if key r = key x then x else r
  else rows ++ [x]

theorem mem_upsert {key : ρ → κ} {rows : List ρ} {x z : ρ} :
    z ∈ upsert key rows x ↔ z = x ∨ (z ∈ rows ∧ key z ≠ key x) := by
  unfold upsert
  split_ifs with hkey
  · rw [List.mem_map]
    constructor
    · rintro ⟨r, hr, rfl⟩
      split_ifs with hx
      · exact .inl rfl
      · exact .inr ⟨hr, hx⟩
    · rintro (rfl | ⟨hz, hne⟩)
      · obtain ⟨r, hr, heq⟩ := hkey
        exact ⟨r, hr, if_pos heq⟩
      · exact ⟨z, hz, if_neg hne⟩
  · rw [List.mem_append, List.mem_singleton]
    constructor
    · rintro (hz | rfl)
      · exact .inr ⟨hz, fun heq => hkey ⟨z, hz, heq⟩⟩
      · exact .inl rfl
    · rintro (rfl | ⟨hz, -⟩)
      · exact .inr rfl
      · exact .inl hz

/-- After several rows, what is there is one of them, or was there under another key. -/
theorem mem_upserts {key : ρ → κ} {xs rows : List ρ} {z : ρ} (h : z ∈ xs.foldl (upsert key) rows) :
    z ∈ xs ∨ (z ∈ rows ∧ ∀ x ∈ xs, key z ≠ key x) := by
  induction xs generalizing rows with
  | nil => exact .inr ⟨h, fun _ hx => nomatch hx⟩
  | cons x xs ih =>
    rcases ih h with hz | ⟨hz, hne⟩
    · exact .inl (List.mem_cons_of_mem _ hz)
    · rcases mem_upsert.1 hz with rfl | ⟨hz, hx⟩
      · exact .inl List.mem_cons_self
      · exact .inr ⟨hz, List.forall_mem_cons.mpr ⟨hx, hne⟩⟩

theorem mem_upserts_of_ne {key : ρ → κ} {xs rows : List ρ} {z : ρ} (hz : z ∈ rows)
    (hne : ∀ x ∈ xs, key z ≠ key x) : z ∈ xs.foldl (upsert key) rows := by
  induction xs generalizing rows with
  | nil => exact hz
  | cons x xs ih =>
    refine ih (mem_upsert.2 (.inr ⟨hz, hne x List.mem_cons_self⟩)) ?_
    exact fun y hy => hne y (List.mem_cons_of_mem _ hy)

/-- Each key that was written has a row that was written. -/
theorem exists_mem_upserts (key : ρ → κ) {xs rows : List ρ} {x : ρ} (hx : x ∈ xs) :
    ∃ z ∈ xs.foldl (upsert key) rows, z ∈ xs ∧ key z = key x := by
  induction xs generalizing rows x with
  | nil => cases hx
  | cons y ys ih =>
    by_cases hlater : ∃ z ∈ ys, key z = key x
    · obtain ⟨z, hz, hkey⟩ := hlater
      have hrest : ∃ v ∈ ys.foldl (upsert key) (upsert key rows y), v ∈ ys ∧ key v = key z := ih hz
      obtain ⟨v, hv, hvys, heq⟩ := hrest
      exact ⟨v, hv, List.mem_cons_of_mem _ hvys, heq.trans hkey⟩
    · rcases List.mem_cons.mp hx with rfl | hx
      · have hin : x ∈ upsert key rows x := mem_upsert.2 (.inl rfl)
        have hlast : ∀ z ∈ ys, key x ≠ key z := fun z hz heq => hlater ⟨z, hz, heq.symm⟩
        have hkept := mem_upserts_of_ne hin hlast
        exact ⟨x, hkept, List.mem_cons_self, rfl⟩
      · exact absurd ⟨x, hx, rfl⟩ hlater

end Rows

/-! ## Locks -/

section Locks

variable {τ κ : Type} {locks : τ → Option κ}

/-- No two transactions hold the same lock. -/
def Exclusive (locks : τ → Option κ) (running : List τ) : Prop := (running.filterMap locks).Nodup

theorem exclusive_nil : Exclusive locks [] := List.nodup_nil

/-- A transaction that begins takes no lock of another. -/
theorem Exclusive.concat {running : List τ} (h : Exclusive locks running) {t : τ}
    (hfree : ∀ k, locks t = some k → ∀ u ∈ running, locks u ≠ some k) :
    Exclusive locks (running ++ [t]) := by
  unfold Exclusive
  rw [List.filterMap_append, List.nodup_append]
  refine ⟨h, ?_, ?_⟩
  · cases hl : locks t <;> simp [hl]
  · rintro k hk _ hnew rfl
    obtain ⟨u, hu, hul⟩ := List.mem_filterMap.mp hk
    obtain ⟨v, hv, hvl⟩ := List.mem_filterMap.mp hnew
    rw [List.mem_singleton.mp hv] at hvl
    exact hfree k hvl u hu hul

theorem Exclusive.eraseIdx {running : List τ} (h : Exclusive locks running) (n : ℕ) :
    Exclusive locks (running.eraseIdx n) :=
  h.sublist ((List.eraseIdx_sublist _ _).filterMap _)

/-- A transaction that goes on keeps its lock. -/
theorem Exclusive.set {running : List τ} (h : Exclusive locks running) {n : ℕ} {t u : τ}
    (ht : running[n]? = some t) (heq : locks u = locks t) : Exclusive locks (running.set n u) := by
  have hsame : ∀ {rest : List τ} {m : ℕ}, rest[m]? = some t →
      (rest.set m u).filterMap locks = rest.filterMap locks := by
    intro rest
    induction rest with
    | nil => exact fun _ => rfl
    | cons c cs ih =>
      intro m hm
      cases m with
      | zero =>
        cases hm
        simp [List.filterMap_cons, heq]
      | succ m => simp [List.filterMap_cons, ih hm]
  unfold Exclusive
  rw [hsame ht]
  exact h

/-- The other transactions hold other locks. -/
theorem Exclusive.ne {running : List τ} (h : Exclusive locks running) {n : ℕ} {t u : τ}
    (ht : running[n]? = some t) (hu : u ∈ running.eraseIdx n) {k : κ} (hk : locks t = some k) :
    locks u ≠ some k := by
  obtain ⟨hn, hget⟩ := List.getElem?_eq_some_iff.mp ht
  have hperm := List.getElem_cons_eraseIdx_perm hn
  rw [hget] at hperm
  have hnd := (hperm.filterMap locks).nodup_iff.mpr h
  rw [List.filterMap_cons_some hk, List.nodup_cons] at hnd
  intro hul
  exact hnd.1 (List.mem_filterMap.mpr ⟨u, hu, hul⟩)

end Locks
end Interleaving
