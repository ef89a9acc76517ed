-- Months of the calendar over the days since 1970, as `Date` counts them: years and
-- months by the tables of ECMAScript, and `setMonth`, where a day that the month
-- does not have runs over into the next one.
import Klick.CivilDays

namespace Js

/-! ## Years -/

/-- `DayFromYear` -/
def dayFromYear (y : ℤ) : ℤ :=
  365 * (y - 1970) + (y - 1969) / 4 - (y - 1901) / 100 + (y - 1601) / 400

def isLeapYear (y : ℤ) : Bool := y % 4 = 0 && (y % 100 ≠ 0 || y % 400 = 0)

/-- `YearFromTime`: the year by the mean length of a year, and one more or less. -/
def yearFromDay (n : ℤ) : ℤ :=
  let y := n * 400 / 146097 + 1970
  if n < dayFromYear y then y - 1 else if dayFromYear (y + 1) ≤ n then y + 1 else y

/-- A leap year has a day more. -/
def leapDay (y : ℤ) : ℤ := if isLeapYear y then 1 else 0

theorem dayFromYear_succ (y : ℤ) : dayFromYear (y + 1) = dayFromYear y + 365 + leapDay y := by
  unfold dayFromYear leapDay isLeapYear
  split_ifs with h
  · simp only [Bool.and_eq_true, Bool.or_eq_true, decide_eq_true_eq] at h
    omega
  · simp only [Bool.and_eq_true, Bool.or_eq_true, decide_eq_true_eq] at h
    omega

/-- A year begins within two days of where the mean year would. -/
theorem dayFromYear_mean (y : ℤ) : 146097 * (y - 1970) - 800 ≤ 400 * dayFromYear y ∧
    400 * dayFromYear y ≤ 146097 * (y - 1970) + 800 := by
  unfold dayFromYear
  omega

/-- A day lies in its year. -/
theorem yearFromDay_spec (n : ℤ) :
    dayFromYear (yearFromDay n) ≤ n ∧ n < dayFromYear (yearFromDay n + 1) := by
  unfold yearFromDay
  dsimp only
  have hlow := (dayFromYear_mean (n * 400 / 146097 + 1970 - 1)).2
  have hhigh := (dayFromYear_mean (n * 400 / 146097 + 1970 + 1 + 1)).1
  split_ifs with h1 h2
  · rw [sub_add_cancel]
    omega
  · omega
  · exact ⟨not_lt.mp h1, not_le.mp h2⟩

/-! ## Months -/

/-- The days of a year before a month: from March on five months have 153 days. -/
def dayWithinYear (y m : ℤ) : ℤ :=
  if m < 2 then 31 * m else 59 + leapDay y + (153 * (m - 2) + 2) / 5

/-- The first day of a month, which is counted from the year 0 on. -/
def monthStart (month : ℤ) : ℤ := dayFromYear (month / 12) + dayWithinYear (month / 12) (month % 12)

/-- `MonthFromTime`, by the day within the year and the leap day. -/
def monthFromDay (d leap : ℤ) : ℤ :=
  if d < 31 then 0 else if d < 59 + leap then 1 else 2 + (5 * (d - 59 - leap) + 2) / 153

/-- The month of a day. -/
def monthOf (n : ℤ) : ℤ :=
  let y := yearFromDay n
  12 * y + monthFromDay (n - dayFromYear y) (leapDay y)

/-- `DateFromTime` -/
def dayOfMonth (n : ℤ) : ℤ := n - monthStart (monthOf n) + 1

def monthDays (month : ℤ) : ℤ := monthStart (month + 1) - monthStart month

theorem leapDay_cases (y : ℤ) : leapDay y = 0 ∨ leapDay y = 1 := by
  unfold leapDay
  split_ifs
  · exact .inr rfl
  · exact .inl rfl

theorem monthStart_of {y m : ℤ} (h0 : 0 ≤ m) (h1 : m < 12) :
    monthStart (12 * y + m) = dayFromYear y + dayWithinYear y m := by
  have hy : (12 * y + m) / 12 = y := by omega
  have hm : (12 * y + m) % 12 = m := by omega
  unfold monthStart
  rw [hy, hm]

/-- The first day of a year is the one of its first month. -/
theorem monthStart_year (y : ℤ) : monthStart (12 * y) = dayFromYear y := by
  have h := monthStart_of (y := y) (m := 0) (by norm_num) (by norm_num)
  simpa [dayWithinYear] using h

theorem monthDays_of (y : ℤ) {m : ℤ} (h0 : 0 ≤ m) (h1 : m < 11) :
    monthDays (12 * y + m) = dayWithinYear y (m + 1) - dayWithinYear y m := by
  unfold monthDays
  rw [add_assoc, monthStart_of (by omega) (by omega), monthStart_of h0 (by omega)]
  ring

/-- December has 31 days. -/
theorem monthDays_last (y : ℤ) : monthDays (12 * y + 11) = 31 := by
  have hnext : 12 * y + 11 + 1 = 12 * (y + 1) := by ring
  unfold monthDays
  rw [hnext, monthStart_year, monthStart_of (by norm_num) (by norm_num), dayFromYear_succ]
  unfold dayWithinYear
  rw [if_neg (by norm_num)]
  norm_num
  ring

theorem monthDays_bounds (month : ℤ) : 28 ≤ monthDays month ∧ monthDays month ≤ 31 := by
  have hmonth : month = 12 * (month / 12) + month % 12 := by omega
  have h0 : 0 ≤ month % 12 := by omega
  have h1 : month % 12 < 12 := by omega
  have hleap := leapDay_cases (month / 12)
  rw [hmonth]
  generalize month % 12 = m at h0 h1
  by_cases hlast : m = 11
  · rw [hlast, monthDays_last]
    norm_num
  · rw [monthDays_of _ h0 (by omega)]
    unfold dayWithinYear
    split_ifs <;> omega

/-- The month of a day within the year is one of twelve, and the day lies in it. -/
theorem monthFromDay_spec (y : ℤ) {d : ℤ} (h0 : 0 ≤ d) (h1 : d < 365 + leapDay y) :
    0 ≤ monthFromDay d (leapDay y) ∧ monthFromDay d (leapDay y) < 12 ∧
      dayWithinYear y (monthFromDay d (leapDay y)) ≤ d ∧
      (monthFromDay d (leapDay y) < 11 → d < dayWithinYear y (monthFromDay d (leapDay y) + 1)) := by
  have hleap := leapDay_cases y
  unfold monthFromDay dayWithinYear
  split_ifs <;> omega

/-- A day lies in its month. -/
theorem monthOf_spec (n : ℤ) : monthStart (monthOf n) ≤ n ∧ n < monthStart (monthOf n + 1) := by
  have hyear := yearFromDay_spec n
  rw [dayFromYear_succ] at hyear
  unfold monthOf
  dsimp only
  generalize yearFromDay n = y at hyear ⊢
  obtain ⟨h0, h1, hlow, hhigh⟩ :=
    monthFromDay_spec y (d := n - dayFromYear y) (by omega) (by omega)
  generalize monthFromDay (n - dayFromYear y) (leapDay y) = m at h0 h1 hlow hhigh
  refine ⟨by rw [monthStart_of h0 h1]; omega, ?_⟩
  by_cases hlast : m = 11
  · have hnext : 12 * y + m + 1 = 12 * (y + 1) := by omega
    rw [hnext, monthStart_year, dayFromYear_succ]
    exact hyear.2
  · have hm := hhigh (by omega)
    rw [add_assoc, monthStart_of (by omega) (by omega)]
    omega

theorem monthStart_mono {a b : ℤ} (h : a ≤ b) : monthStart a ≤ monthStart b := by
  induction b, h using Int.leInduction with
  | base => exact le_rfl
  | succ b _ ih =>
    have hlength := (monthDays_bounds b).1
    unfold monthDays at hlength
    omega

/-- Only the month of a day holds it. -/
theorem monthOf_eq {n month : ℤ} (h : monthStart month ≤ n) (h' : n < monthStart (month + 1)) :
    monthOf n = month := by
  have hspec := monthOf_spec n
  rcases lt_trichotomy (monthOf n) month with hlt | heq | hgt
  · have := monthStart_mono (show monthOf n + 1 ≤ month by omega)
    omega
  · exact heq
  · have := monthStart_mono (show month + 1 ≤ monthOf n by omega)
    omega

theorem monthOf_mono {n n' : ℤ} (h : n ≤ n') : monthOf n ≤ monthOf n' := by
  by_contra hlt
  have hspec := monthOf_spec n
  have hspec' := monthOf_spec n'
  have := monthStart_mono (show monthOf n' + 1 ≤ monthOf n by omega)
  omega

/-- Days that are less than four weeks apart lie in one month or in neighbouring ones. -/
theorem monthOf_near {n n' : ℤ} (h : n' < n + 28) : monthOf n' ≤ monthOf n + 1 := by
  by_contra hlt
  have hspec := monthOf_spec n
  have hspec' := monthOf_spec n'
  have := monthStart_mono (show monthOf n + 1 + 1 ≤ monthOf n' by omega)
  have hlength := (monthDays_bounds (monthOf n + 1)).1
  unfold monthDays at hlength
  omega

theorem dayOfMonth_bounds (n : ℤ) :
    1 ≤ dayOfMonth n ∧ dayOfMonth n ≤ monthDays (monthOf n) := by
  have h := monthOf_spec n
  unfold dayOfMonth monthDays
  omega

/-! ## The date of a day -/

/-- March begins the years that `civilDay` counts. -/
theorem monthStart_march (y : ℤ) : monthStart (12 * y + 2) = dayFromYear (y + 1) - 306 := by
  rw [monthStart_of (by norm_num) (by norm_num), dayFromYear_succ]
  unfold dayWithinYear
  simp
  ring

/-- The year of an era that a day lies in. -/
theorem yearOfEra_bounds {d y : ℕ} (h : d < 146096) (hy : y = (d - d / 1460 + d / 36524) / 365) :
    365 * y + y / 4 - y / 100 ≤ d ∧ d < 365 * (y + 1) + (y + 1) / 4 - (y + 1) / 100 := by
  obtain ⟨c, hc⟩ : ∃ c, c = d / 36524 := ⟨_, rfl⟩
  obtain ⟨q, hq⟩ : ∃ q, q = d / 1460 := ⟨_, rfl⟩
  rw [← hc, ← hq] at hy
  have hc3 : c ≤ 3 := by omega
  have hcentury : y / 100 = c := by
    interval_cases c <;> omega
  have hleap : q ≤ (y + 1) / 4 := by
    have : 4 * q ≤ y + 1 := by omega
    omega
  refine ⟨?_, ?_⟩
  · interval_cases c <;> omega
  · by_cases hlast : y + 1 = 100 * (c + 1)
    · omega
    · have : (y + 1) / 100 = c := by omega
      omega

/-- The first of March by eras. -/
theorem monthStart_era (era : ℤ) {y : ℕ} (h : y ≤ 400) :
    monthStart (12 * (y + era * 400) + 2) =
      era * 146097 + (365 * y + y / 4 - y / 100 + y / 400 : ℕ) - 719468 := by
  have hsub : y / 100 ≤ 365 * y + y / 4 := by omega
  rw [monthStart_march]
  unfold dayFromYear
  push_cast [Nat.cast_sub hsub]
  omega

/-- The months from March on. -/
theorem monthStart_fromMarch (y : ℤ) {m : ℤ} (h0 : 0 ≤ m) (h1 : m ≤ 11) :
    monthStart (12 * y + 2 + m) = monthStart (12 * y + 2) + (153 * m + 2) / 5 := by
  have hmarch := monthStart_march y
  by_cases hyear : m < 10
  · rw [show 12 * y + 2 + m = 12 * y + (2 + m) by ring,
      monthStart_of (by omega) (by omega), monthStart_of (by norm_num) (by norm_num)]
    unfold dayWithinYear
    rw [if_neg (by omega), if_neg (by norm_num)]
    omega
  · rw [show 12 * y + 2 + m = 12 * (y + 1) + (m - 10) by ring,
      monthStart_of (by omega) (by omega), hmarch]
    unfold dayWithinYear
    rw [if_pos (by omega)]
    omega

/-- A year from March on has 365 or 366 days. -/
theorem yearOfEra_length {y : ℕ} (h : y ≤ 399) :
    365 * (y + 1) + (y + 1) / 4 - (y + 1) / 100 + (y + 1) / 400 ≤
      365 * y + y / 4 - y / 100 + 366 := by
  by_cases hlast : y = 399
  · subst hlast
    norm_num
  · have hquarter : (y + 1) / 4 ≤ y / 4 + 1 := by omega
    have hcentury : y / 100 ≤ (y + 1) / 100 := Nat.div_le_div_right (Nat.le_succ y)
    rw [Nat.div_eq_of_lt (show y + 1 < 400 by omega)]
    generalize (y + 1) / 4 = a, (y + 1) / 100 = b, y / 4 = a', y / 100 = b' at hquarter hcentury ⊢
    omega

/-- The month and the day of a day of an era, by the year and the day from March on. -/
theorem month_of_march {era n : ℤ} {d y r m : ℕ} (hn : n = era * 146097 + d - 719468)
    (hy : y ≤ 399) (hlo : 365 * y + y / 4 - y / 100 ≤ d)
    (hhi : d < 365 * (y + 1) + (y + 1) / 4 - (y + 1) / 100 + (y + 1) / 400)
    (hr : r = d - (365 * y + y / 4 - y / 100)) (hm : m = (5 * r + 2) / 153) :
    m ≤ 11 ∧ monthOf n = 12 * (y + era * 400) + 2 + m ∧
      dayOfMonth n = r - (153 * m + 2) / 5 + 1 := by
  have hmarch := monthStart_era era (show y ≤ 400 by omega)
  have hnext := monthStart_era era (show y + 1 ≤ 400 by omega)
  have hlength := yearOfEra_length hy
  rw [Nat.div_eq_of_lt (show y < 400 by omega), Nat.add_zero] at hmarch
  generalize 365 * y + y / 4 - y / 100 = start at hlo hr hmarch hlength
  generalize 365 * (y + 1) + (y + 1) / 4 - (y + 1) / 100 + (y + 1) / 400 = stop
    at hhi hnext hlength
  have hm11 : m ≤ 11 := by omega
  have hstart := monthStart_fromMarch (y + era * 400) (m := m) (by omega) (by omega)
  have hmonth : monthOf n = 12 * (y + era * 400) + 2 + m := by
    apply monthOf_eq
    · omega
    · by_cases hfeb : m = 11
      · rw [show 12 * ((y : ℤ) + era * 400) + 2 + m + 1 = 12 * ((y + 1 : ℕ) + era * 400) + 2 by
          push_cast
          omega, hnext]
        omega
      · have hstart' := monthStart_fromMarch (y + era * 400) (m := m + 1) (by omega) (by omega)
        rw [show 12 * ((y : ℤ) + era * 400) + 2 + m + 1 = 12 * (y + era * 400) + 2 + (m + 1) by ring,
          hstart']
        omega
  refine ⟨hm11, hmonth, ?_⟩
  unfold dayOfMonth
  rw [hmonth]
  omega

/-- **The two ways to find a date agree.** -/
theorem civilDay_eq (n : ℤ) :
    civilDay n = ⟨monthOf n / 12, (monthOf n % 12).toNat + 1, (dayOfMonth n).toNat⟩ := by
  obtain ⟨era, hera⟩ : ∃ era, era = (n + 719468) / 146097 := ⟨_, rfl⟩
  obtain ⟨d, hd⟩ : ∃ d, d = ((n + 719468) % 146097).toNat := ⟨_, rfl⟩
  obtain ⟨y, hy⟩ : ∃ y, y = (d - d / 1460 + d / 36524 - d / 146096) / 365 := ⟨_, rfl⟩
  obtain ⟨r, hr⟩ : ∃ r, r = d - (365 * y + y / 4 - y / 100) := ⟨_, rfl⟩
  obtain ⟨m, hm⟩ : ∃ m, m = (5 * r + 2) / 153 := ⟨_, rfl⟩
  have hn : n = era * 146097 + d - 719468 := by omega
  have hyear : y ≤ 399 ∧ 365 * y + y / 4 - y / 100 ≤ d ∧
      d < 365 * (y + 1) + (y + 1) / 4 - (y + 1) / 100 + (y + 1) / 400 := by
    by_cases hlast : d < 146096
    · have hsame : y = (d - d / 1460 + d / 36524) / 365 := by omega
      have hbounds := yearOfEra_bounds hlast hsame
      omega
    · have hend : d = 146096 := by omega
      subst hend
      norm_num at hy
      subst hy
      norm_num
  obtain ⟨hy399, hlo, hhi⟩ := hyear
  obtain ⟨hm11, hmonth, hday⟩ := month_of_march hn hy399 hlo hhi hr hm
  unfold civilDay
  dsimp only
  rw [← hera, ← hd, ← hy, ← hr, ← hm, hmonth, hday]
  clear hera hd hy hn hlo hhi hmonth hday
  by_cases hten : m < 10
  · rw [if_pos hten, if_pos hten, CivilDay.mk.injEq]
    omega
  · rw [if_neg hten, if_neg hten, CivilDay.mk.injEq]
    omega

/-! ## Moving by a month -/

/-- `date.setMonth(date.getMonth() + 1)` where the local time is ahead of UTC by an offset. -/
def nextMonth (offset t : ℤ) : ℤ :=
  let n := (t + offset) / msPerDay
  (monthStart (monthOf n + 1) + (dayOfMonth n - 1)) * msPerDay + (t + offset) % msPerDay - offset

/-- `date.setMonth(date.getMonth() + months)`, as `nextMonth` for one of them. -/
def monthsLater (offset months t : ℤ) : ℤ :=
  let n := (t + offset) / msPerDay
  (monthStart (monthOf n + months) + (dayOfMonth n - 1)) * msPerDay + (t + offset) % msPerDay - offset

/-- The month of an instant, and how many days it has. -/
def monthAt (offset t : ℤ) : ℤ := monthOf ((t + offset) / msPerDay)

/-- A month on is so many days on as the month has, whatever the day. -/
theorem nextMonth_eq (offset t : ℤ) :
    nextMonth offset t = t + monthDays (monthAt offset t) * msPerDay := by
  have hsplit := Int.mul_ediv_add_emod (t + offset) msPerDay
  unfold nextMonth monthAt dayOfMonth monthDays
  dsimp only
  linarith

end Js
