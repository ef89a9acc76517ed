-- Numbers of JavaScript: rounding to binary64, and the values that a
-- number can have. A finite number is the rational that it stands for.
-- The sign of zero is not kept: nothing here tells the two zeros apart.
import Klick.Text

namespace Js

/-! ## Rounding to the nearest integer, ties to even -/

/-- The nearest integer, the even one of two. -/
def roundEven (q : ℚ) : ℤ :=
  if q - ⌊q⌋ < 1 / 2 then ⌊q⌋
  else if 1 / 2 < q - ⌊q⌋ then ⌊q⌋ + 1
  else if ⌊q⌋ % 2 = 0 then ⌊q⌋ else ⌊q⌋ + 1

theorem floor_le_roundEven (q : ℚ) : ⌊q⌋ ≤ roundEven q := by
  unfold roundEven
  split_ifs <;> omega

theorem roundEven_le_floor (q : ℚ) : roundEven q ≤ ⌊q⌋ + 1 := by
  unfold roundEven
  split_ifs <;> omega

@[simp] theorem roundEven_intCast (z : ℤ) : roundEven (z : ℚ) = z := by
  simp [roundEven]

theorem roundEven_mono {p q : ℚ} (h : p ≤ q) : roundEven p ≤ roundEven q := by
  have hf := Int.floor_le_floor h
  rcases hf.lt_or_eq with hlt | heq
  · have := roundEven_le_floor p
    have := floor_le_roundEven q
    omega
  · unfold roundEven
    rw [heq]
    split_ifs <;> first | omega | linarith

theorem roundEven_neg (q : ℚ) : roundEven (-q) = -roundEven q := by
  by_cases hz : (⌊q⌋ : ℚ) = q
  · rw [← hz, ← Int.cast_neg, roundEven_intCast, roundEven_intCast]
  · have h1 := Int.floor_le q
    have h2 := Int.lt_floor_add_one q
    have h3 : (⌊q⌋ : ℚ) < q := lt_of_le_of_ne h1 hz
    have hneg : ⌊-q⌋ = -⌊q⌋ - 1 := by
      rw [Int.floor_eq_iff]
      push_cast
      constructor <;> linarith
    unfold roundEven
    rw [hneg]
    push_cast
    split_ifs <;> first | omega | linarith

/-- `Math.round` -/
def mathRound (q : ℚ) : ℤ := ⌊q + 1 / 2⌋

/-! ## Rounding to 53 binary digits -/

/-- The exponent of the last binary digit that a binary64 near `q` has. -/
def lastBit (q : ℚ) : ℤ := max (Int.log 2 |q| - 52) (-1074)

/-- The nearest binary64 without the bound above, ties to even. -/
def fl (q : ℚ) : ℚ := roundEven (q / 2 ^ lastBit q) * 2 ^ lastBit q

theorem two_zpow_pos (e : ℤ) : (0 : ℚ) < 2 ^ e := zpow_pos (by norm_num) e

/-- A multiple of the last binary digit rounds to itself. -/
theorem fl_of_multiple {q : ℚ} (z : ℤ) (h : q = z * 2 ^ lastBit q) : fl q = q := by
  have hne := (two_zpow_pos (lastBit q)).ne'
  have hz : q / 2 ^ lastBit q = (z : ℚ) := by
    rw [div_eq_iff hne]
    exact h
  unfold fl
  rw [hz, roundEven_intCast]
  exact h.symm

theorem fl_neg (q : ℚ) : fl (-q) = -fl q := by
  have hb : lastBit (-q) = lastBit q := by simp [lastBit]
  unfold fl
  rw [hb, neg_div, roundEven_neg]
  push_cast
  ring

theorem fl_zero : fl 0 = 0 := by simpa using fl_of_multiple (q := 0) 0 (by simp)

/-- An integer power of two above the last bit is a whole number of last bits. -/
theorem zpow_multiple {k e : ℤ} (h : e ≤ k) : ∃ z : ℤ, (2 : ℚ) ^ k / 2 ^ e = z := by
  refine ⟨2 ^ (k - e).toNat, ?_⟩
  rw [← zpow_sub₀ (by norm_num)]
  obtain ⟨n, hn⟩ := Int.eq_ofNat_of_zero_le (sub_nonneg.mpr h)
  rw [hn]
  simp

theorem roundEven_le_of_le {q : ℚ} {z : ℤ} (h : q ≤ z) : roundEven q ≤ z := by
  simpa using roundEven_mono h

theorem le_roundEven_of_le {q : ℚ} {z : ℤ} (h : (z : ℚ) ≤ q) : z ≤ roundEven q := by
  simpa using roundEven_mono h

theorem fl_mono_of_pos {p q : ℚ} (hp : 0 < p) (h : p ≤ q) : fl p ≤ fl q := by
  have hq : 0 < q := lt_of_lt_of_le hp h
  have hlog : Int.log 2 p ≤ Int.log 2 q := Int.log_mono_right hp h
  rcases hlog.lt_or_eq with hlt | heq
  · -- the power of two between them is a value of both grids
    set k := Int.log 2 q with hk
    have hkq : (2 : ℚ) ^ k ≤ q := by exact_mod_cast Int.zpow_log_le_self (b := 2) (by norm_num) hq
    have hpk : p ≤ (2 : ℚ) ^ k := by
      have h1 : p < (2 : ℚ) ^ (Int.log 2 p + 1) := by
        exact_mod_cast Int.lt_zpow_succ_log_self (b := 2) (by norm_num) p
      exact h1.le.trans (zpow_le_zpow_right₀ (by norm_num) (by omega))
    have below : ∀ x : ℚ, 0 < x → (2 : ℚ) ^ k ≤ x → Int.log 2 x = k →
        -1022 ≤ k → (2 : ℚ) ^ k ≤ fl x := by
      intro x hx hkx hlx hk2
      have he : lastBit x = k - 52 := by
        simp only [lastBit, abs_of_pos hx, hlx]
        omega
      obtain ⟨z, hz⟩ := zpow_multiple (k := k) (e := k - 52) (by omega)
      unfold fl
      rw [he, ← div_le_iff₀ (two_zpow_pos _), hz]
      exact_mod_cast le_roundEven_of_le (by
        rw [← hz]
        exact div_le_div_of_nonneg_right hkx (two_zpow_pos _).le)
    by_cases hk2 : -1022 ≤ k
    · have h2 : (2 : ℚ) ^ k ≤ fl q := below q hq hkq rfl hk2
      have h1 : fl p ≤ (2 : ℚ) ^ k := by
        have he : lastBit p ≤ k := by
          simp only [lastBit, abs_of_pos hp]
          omega
        obtain ⟨z, hz⟩ := zpow_multiple he
        unfold fl
        rw [← le_div_iff₀ (two_zpow_pos _), hz]
        exact_mod_cast roundEven_le_of_le (by
          rw [← hz]
          exact div_le_div_of_nonneg_right hpk (two_zpow_pos _).le)
      exact h1.trans h2
    · have hep : lastBit p = -1074 := by
        simp only [lastBit, abs_of_pos hp]
        omega
      have heq : lastBit q = -1074 := by
        simp only [lastBit, abs_of_pos hq]
        omega
      unfold fl
      rw [hep, heq]
      refine mul_le_mul_of_nonneg_right ?_ (two_zpow_pos _).le
      exact_mod_cast roundEven_mono (div_le_div_of_nonneg_right h (two_zpow_pos _).le)
  · have he : lastBit p = lastBit q := by simp [lastBit, abs_of_pos hp, abs_of_pos hq, heq]
    unfold fl
    rw [he]
    refine mul_le_mul_of_nonneg_right ?_ (two_zpow_pos _).le
    exact_mod_cast roundEven_mono (div_le_div_of_nonneg_right h (two_zpow_pos _).le)

theorem fl_nonneg {q : ℚ} (h : 0 ≤ q) : 0 ≤ fl q := by
  unfold fl
  refine mul_nonneg ?_ (two_zpow_pos _).le
  exact_mod_cast le_roundEven_of_le (z := 0) (by
    push_cast
    exact div_nonneg h (two_zpow_pos _).le)

/-- Rounding keeps the order. -/
theorem fl_mono {p q : ℚ} (h : p ≤ q) : fl p ≤ fl q := by
  rcases lt_trichotomy 0 p with hp | hp | hp
  · exact fl_mono_of_pos hp h
  · rw [← hp, fl_zero]
    exact fl_nonneg (hp ▸ h)
  · rcases lt_or_ge q 0 with hq | hq
    · have := fl_mono_of_pos (neg_pos.mpr hq) (neg_le_neg h)
      rw [fl_neg, fl_neg] at this
      linarith
    · have h1 := fl_nonneg (neg_nonneg.mpr hp.le)
      have h2 := fl_nonneg hq
      rw [fl_neg] at h1
      linarith

/-- Every integer of at most 53 binary digits is a binary64. -/
theorem fl_intCast {z : ℤ} (h : |z| ≤ 2 ^ 53) : fl (z : ℚ) = z := by
  rcases eq_or_ne z 0 with rfl | hz
  · simpa using fl_zero
  have hpos : (0 : ℚ) < |(z : ℚ)| := abs_pos.mpr (by exact_mod_cast hz)
  have hle : (2 : ℚ) ^ Int.log 2 |(z : ℚ)| ≤ |(z : ℚ)| := by
    exact_mod_cast Int.zpow_log_le_self (b := 2) (by norm_num) hpos
  have hq : |(z : ℚ)| ≤ 2 ^ (53 : ℤ) := by exact_mod_cast h
  have hlog : Int.log 2 |(z : ℚ)| ≤ 53 :=
    (zpow_le_zpow_iff_right₀ (by norm_num : (1 : ℚ) < 2)).mp (hle.trans hq)
  rcases lt_or_ge (Int.log 2 |(z : ℚ)|) 53 with hlt | hge
  · -- the last bit is at most the unit, so the integer is on the grid
    have he : lastBit (z : ℚ) ≤ 0 := by
      unfold lastBit
      omega
    obtain ⟨w, hw⟩ := zpow_multiple he
    refine fl_of_multiple (z * w) ?_
    push_cast
    rw [← hw]
    field_simp
  · have h53 : Int.log 2 |(z : ℚ)| = 53 := by omega
    have habs : |(z : ℚ)| = 2 ^ (53 : ℤ) := le_antisymm hq (h53 ▸ hle)
    have he : lastBit (z : ℚ) = 1 := by simp [lastBit, h53]
    rcases abs_choice (z : ℚ) with hc | hc
    · refine fl_of_multiple (2 ^ 52) ?_
      rw [he, ← hc, habs]
      norm_num
    · refine fl_of_multiple (-2 ^ 52) ?_
      rw [he]
      have : (z : ℚ) = -2 ^ (53 : ℤ) := by rw [← habs, hc, neg_neg]
      rw [this]
      norm_num

/-- A bound that is an integer of at most 53 binary digits survives the rounding. -/
theorem fl_le_intCast {q : ℚ} {z : ℤ} (hz : |z| ≤ 2 ^ 53) (h : q ≤ z) : fl q ≤ z := by
  have := fl_mono h
  rwa [fl_intCast hz] at this

theorem intCast_le_fl {q : ℚ} {z : ℤ} (hz : |z| ≤ 2 ^ 53) (h : (z : ℚ) ≤ q) : (z : ℚ) ≤ fl q := by
  have := fl_mono h
  rwa [fl_intCast hz] at this

/-! ## Sums of integers -/

/-- `a + b` on numbers that are integers. -/
def plus (a b : ℤ) : ℤ := ⌊fl ((a + b : ℤ) : ℚ)⌋

theorem plus_mono (a : ℤ) {b c : ℤ} (h : b ≤ c) : plus a b ≤ plus a c := by
  apply Int.floor_le_floor
  apply fl_mono
  exact_mod_cast add_le_add_right h a

theorem plus_eq {a b : ℤ} (h : |a + b| ≤ 2 ^ 53) : plus a b = a + b := by
  rw [plus, fl_intCast h, Int.floor_intCast]

/-! ## The values of a number -/

inductive Number
  | fin (q : ℚ)
  | inf (negative : Bool)
  | nan
deriving DecidableEq, Repr

/-- The least power of two that no binary64 reaches. -/
def tooLarge : ℚ := (2 ^ 1024 : ℕ)

/-- The number nearest to a rational, an infinity beyond the largest one. -/
def Number.ofRat (q : ℚ) : Number :=
  if tooLarge ≤ fl q then .inf false
  else if fl q ≤ -tooLarge then .inf true
  else .fin (fl q)

/-- `Number.MAX_SAFE_INTEGER` -/
def maxSafe : ℕ := 2 ^ 53 - 1

/-- The integer of a number for which `Number.isInteger` holds. -/
def Number.int? : Number → Option ℤ
  | .fin q => if q.den = 1 then some q.num else none
  | _ => none

/-- The integer of a number for which `Number.isSafeInteger` holds. -/
def Number.safe? (n : Number) : Option ℤ :=
  match n.int? with
  | some z => if z.natAbs ≤ maxSafe then some z else none
  | none => none

@[simp] theorem Number.int?_intCast (z : ℤ) : (Number.fin z).int? = some z := by
  simp [Number.int?]

theorem Number.int?_eq_some {n : Number} {z : ℤ} (h : n.int? = some z) : n = .fin z := by
  cases n with
  | fin q =>
    simp only [Number.int?] at h
    split at h
    · rename_i hd
      simp only [Option.some.injEq] at h
      rw [← h, Rat.coe_int_num_of_den_eq_one hd]
    · cases h
  | inf _ => simp [Number.int?] at h
  | nan => simp [Number.int?] at h

theorem Number.safe?_eq_some {n : Number} {z : ℤ} (h : n.safe? = some z) :
    n = .fin z ∧ z.natAbs ≤ maxSafe := by
  unfold Number.safe? at h
  split at h
  · rename_i w hw
    split at h
    · rename_i hs
      simp only [Option.some.injEq] at h
      subst h
      exact ⟨Number.int?_eq_some hw, hs⟩
    · cases h
  · cases h

theorem Number.safe?_intCast {z : ℤ} (h : z.natAbs ≤ maxSafe) :
    (Number.fin z).safe? = some z := by
  simp [Number.safe?, h]

theorem Number.ofRat_safe {z : ℤ} (h : z.natAbs ≤ maxSafe) : Number.ofRat z = .fin z := by
  have hsafe : |z| < 2 ^ 53 := by
    rw [Int.abs_eq_natAbs]
    have : maxSafe < 2 ^ 53 := by decide
    exact_mod_cast (by omega : z.natAbs < 2 ^ 53)
  have hlarge : (2 : ℚ) ^ 53 ≤ tooLarge := by
    rw [tooLarge, Nat.cast_pow, Nat.cast_ofNat]
    exact pow_le_pow_right₀ (by norm_num) (by norm_num)
  have hq : |(z : ℚ)| < 2 ^ 53 := by exact_mod_cast hsafe
  have hb := abs_lt.mp hq
  unfold Number.ofRat
  rw [fl_intCast hsafe.le, if_neg (by linarith), if_neg (by linarith)]

end Js
