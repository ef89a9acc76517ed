-- Days as ISO 8601 writes them: `YYYY-MM-DD`. Texts of this shape compare as the
-- days do, which is why a program may compare them as they are.
import Klick.Value

namespace Js

/-! ## Digits in their order -/

theorem natOf_cons (u : UInt16) (t : Text) :
    natOf (u :: t) = unitDigit u * 10 ^ t.length + natOf t := by
  unfold natOf
  rw [List.map_cons, List.reverse_cons, Nat.ofDigits_append, Nat.ofDigits_singleton]
  simp [Nat.mul_comm, Nat.add_comm]

theorem natOf_lt_pow {t : Text} (h : ∀ u ∈ t, isDigit u = true) : natOf t < 10 ^ t.length := by
  induction t with
  | nil => exact Nat.one_pos
  | cons u t ih =>
    have hu := unitDigit_lt (h u List.mem_cons_self)
    have ht := ih fun v hv => h v (List.mem_cons_of_mem _ hv)
    rw [natOf_cons, List.length_cons, Nat.pow_succ]
    nlinarith

/-- Digits of one length, and something behind them: the numbers decide first. -/
theorem textLe_digits {s t : Text} (r q : Text) (hs : ∀ u ∈ s, isDigit u = true)
    (ht : ∀ u ∈ t, isDigit u = true) (hlen : s.length = t.length) :
    textLe (s ++ r) (t ++ q) = true ↔ natOf s < natOf t ∨ natOf s = natOf t ∧ textLe r q = true := by
  induction s generalizing t with
  | nil =>
    rw [List.length_eq_zero_iff.mp hlen.symm]
    simp
  | cons a s ih =>
    cases t with
    | nil => cases hlen
    | cons b t =>
      have hlen' : s.length = t.length := Nat.succ.inj hlen
      have hs' : ∀ u ∈ s, isDigit u = true := fun u hu => hs u (List.mem_cons_of_mem _ hu)
      have ht' : ∀ u ∈ t, isDigit u = true := fun u hu => ht u (List.mem_cons_of_mem _ hu)
      have ha := hs a List.mem_cons_self
      have hb := ht b List.mem_cons_self
      have hslt := natOf_lt_pow hs'
      have htlt := natOf_lt_pow ht'
      rw [List.cons_append, List.cons_append, textLe, Bool.or_eq_true, decide_eq_true_eq,
        Bool.and_eq_true, ih hs' ht' hlen', natOf_cons, natOf_cons, ← hlen']
      rw [← hlen'] at htlt
      have hcode : ∀ {u : UInt16}, isDigit u = true → u.toNat = unitDigit u + 48 := by
        intro u hu
        unfold isDigit at hu
        unfold unitDigit
        simp only [Bool.and_eq_true, decide_eq_true_eq] at hu
        omega
      have hac := hcode ha
      have hbc := hcode hb
      rcases lt_trichotomy (unitDigit a) (unitDigit b) with h | h | h
      · have hmul : unitDigit a * 10 ^ s.length + 10 ^ s.length ≤ unitDigit b * 10 ^ s.length := by
          nlinarith
        constructor
        · intro _
          left
          omega
        · intro _
          left
          omega
      · have hab : a = b := UInt16.toNat_inj.mp (by omega)
        subst hab
        simp
      · have hmul : unitDigit b * 10 ^ s.length + 10 ^ s.length ≤ unitDigit a * 10 ^ s.length := by
          nlinarith
        have hne : ¬ (a == b) = true := by
          intro heq
          rw [beq_iff_eq.mp heq] at h
          omega
        constructor
        · rintro (h1 | ⟨h1, -⟩)
          · omega
          · exact absurd h1 hne
        · rintro (h1 | ⟨h1, -⟩) <;> omega

/-! ## Two digits -/

/-- `String(n).padStart(2, "0")` -/
def pad (n : ℕ) : Text := List.replicate (2 - (decimal n).length) (ch '0') ++ decimal n

theorem decimal_length_pos (n : ℕ) : 0 < (decimal n).length :=
  List.length_pos_iff.mpr (decimal_ne_nil n)

theorem pad_length {n : ℕ} (h : n < 100) : (pad n).length = 2 := by
  have hle := (decimal_length_le (n := n) (k := 2) (by omega)).mpr h
  unfold pad
  rw [List.length_append, List.length_replicate]
  omega

theorem pad_digits (n : ℕ) : ∀ u ∈ pad n, isDigit u = true := by
  intro u hu
  rcases List.mem_append.mp hu with hu | hu
  · rw [List.eq_of_mem_replicate hu]
    decide
  · exact decimal_digits n u hu

theorem natOf_zeros (k : ℕ) (t : Text) : natOf (List.replicate k (ch '0') ++ t) = natOf t := by
  induction k with
  | zero => rfl
  | succ k ih =>
    rw [List.replicate_succ, List.cons_append, natOf_cons, ih]
    have hzero : unitDigit (ch '0') = 0 := by decide
    rw [hzero, Nat.zero_mul, Nat.zero_add]

theorem natOf_pad (n : ℕ) : natOf (pad n) = n := by
  unfold pad
  rw [natOf_zeros, natOf_decimal]

theorem pad_injective {m n : ℕ} (h : pad m = pad n) : m = n := by
  rw [← natOf_pad m, h, natOf_pad]

/-! ## Days -/

/-- The last day of a month. -/
def monthLength (year month : ℕ) : ℕ :=
  if month = 2 then
    if year % 4 = 0 ∧ (year % 100 ≠ 0 ∨ year % 400 = 0) then 29 else 28
  else if month = 4 ∨ month = 6 ∨ month = 9 ∨ month = 11 then 30
  else 31

theorem monthLength_pos (year month : ℕ) : 1 ≤ monthLength year month := by
  unfold monthLength
  split_ifs <;> omega

theorem monthLength_le (year month : ℕ) : monthLength year month ≤ 31 := by
  unfold monthLength
  split_ifs <;> omega

/-- Three numbers of a date; a year of four digits makes a day of them. -/
structure YearMonthDay where
  year : ℕ
  month : ℕ
  day : ℕ
deriving DecidableEq, Repr

namespace YearMonthDay

/-- `${year}-${pad(month)}-${pad(day)}` -/
def iso (d : YearMonthDay) : Text :=
  decimal d.year ++ ch '-' :: (pad d.month ++ ch '-' :: pad d.day)

/-- The dates in their order. -/
def code (d : YearMonthDay) : ℕ := d.year * 10000 + d.month * 100 + d.day

/-- A day of the calendar. -/
structure IsDay (d : YearMonthDay) : Prop where
  month_lo : 1 ≤ d.month
  month_hi : d.month ≤ 12
  day_lo : 1 ≤ d.day
  day_hi : d.day ≤ monthLength d.year d.month

theorem IsDay.day_le {d : YearMonthDay} (h : d.IsDay) : d.day ≤ 31 :=
  h.day_hi.trans (monthLength_le d.year d.month)

/-- Four digits, two and two. -/
structure Fits (d : YearMonthDay) : Prop where
  year_lo : 1000 ≤ d.year
  year_hi : d.year ≤ 9999
  month : d.month < 100
  day : d.day < 100

theorem decimal_length_year {n : ℕ} (hlo : 1000 ≤ n) (hhi : n ≤ 9999) : (decimal n).length = 4 := by
  have hle := (decimal_length_le (n := n) (k := 4) (by omega)).mpr (by omega)
  have hgt : ¬ (decimal n).length ≤ 3 := by
    rw [decimal_length_le (by omega)]
    omega
  omega

/-- **ISO dates compare as the days do.** -/
theorem textLe_iso {c d : YearMonthDay} (hc : c.Fits) (hd : d.Fits) :
    textLe c.iso d.iso = true ↔ c.code ≤ d.code := by
  have hdash : ∀ r q : Text, textLe (ch '-' :: r) (ch '-' :: q) = textLe r q := by
    intro r q
    simp [textLe]
  have hlast : textLe (pad c.day) (pad d.day) = true ↔ c.day ≤ d.day := by
    have := textLe_digits [] [] (pad_digits c.day) (pad_digits d.day)
      (by rw [pad_length hc.day, pad_length hd.day])
    rw [List.append_nil, List.append_nil, natOf_pad, natOf_pad] at this
    rw [this, textLe_refl, eq_self, and_true, le_iff_lt_or_eq]
  unfold iso code
  rw [textLe_digits _ _ (decimal_digits _) (decimal_digits _)
      (by rw [decimal_length_year hc.year_lo hc.year_hi, decimal_length_year hd.year_lo hd.year_hi]),
    hdash, textLe_digits _ _ (pad_digits _) (pad_digits _)
      (by rw [pad_length hc.month, pad_length hd.month]),
    hdash, hlast, natOf_decimal, natOf_decimal, natOf_pad, natOf_pad]
  have h1 := hc.month
  have h2 := hd.month
  have h3 := hc.day
  have h4 := hd.day
  omega

end YearMonthDay

/-- A moment of UTC: its day, and how many milliseconds of the day have passed. -/
structure Moment where
  date : YearMonthDay
  ms : ℕ
  year_lo : 1000 < date.year
  year_hi : date.year < 9999
  isDay : date.IsDay

namespace Moment

/-- `m < n` -/
def before (m n : Moment) : Bool :=
  m.date.code < n.date.code || (m.date.code = n.date.code && m.ms < n.ms)

theorem fits (m : Moment) : m.date.Fits where
  year_lo := by have := m.year_lo; omega
  year_hi := by have := m.year_hi; omega
  month := by have := m.isDay.month_hi; omega
  day := by have := m.isDay.day_le; omega

end Moment
end Js
