-- Months added to a date: the next review of a supplier and the next cycle of a training run
-- over the end of a short month, where the identity rules stop at its last day.
import Klick.Months

namespace Klick.MonthIntervals

open Js

/-! ## Dates and intervals -/

/-- What `toISOString` throws on an invalid date. -/
inductive RangeError where
  | invalidTime
deriving DecidableEq, Repr

/-- `TimeClip` -/
def timeClip (ms : ℤ) : Option ℤ := if |ms| ≤ 8640000000000000 then some ms else none

/-- `d.toISOString().slice(0, 10)` -/
def isoDate (d : Option ℤ) : Except RangeError Text :=
  match d with
  | some ms => .ok (isoDay ms)
  | none => .error .invalidTime

/-- `d.setMonth(d.getMonth() + months)` by a clock that is ahead of UTC by an offset. -/
def setMonth (offset months d : ℤ) : Option ℤ := timeClip (monthsLater offset months d)

/-- The threshold of a level: the months until the next rating. -/
structure SupplierThreshold where
  months : ℤ

inductive Criticality where
  | critical
  | important
  | standard
deriving DecidableEq, Repr

/-- The interval of a rating: for a critical provider at most so many months. -/
def reviewMonths (level : SupplierThreshold) (criticality : Criticality)
    (criticalMaxMonths : ℤ) : ℤ :=
  if criticality = .critical then min level.months criticalMaxMonths else level.months

/-- The next review of a supplier, from the instant of the rating on. -/
def nextReviewDate (since : ℤ) (level : Option SupplierThreshold) (criticality : Criticality)
    (criticalMaxMonths : ℤ) : Except RangeError (Option Text) :=
  match level with
  | none => .ok none
  | some level => do
    let iso ← isoDate (setMonth 0 (reviewMonths level criticality criticalMaxMonths) since)
    pure (some iso)

/-- `addMonthsIso` of the trainings, where the local time is ahead of UTC by an offset. -/
def Trainings.addMonthsIso (offset base months : ℤ) : Except RangeError Text :=
  isoDate (setMonth offset months base)

/-! ## The identity rules -/

/-- `/^(\d{4})-(\d{2})-(\d{2})$/`, as three numbers -/
def isoDayMatch : Text → Option (ℕ × ℕ × ℕ)
  | [a, b, c, d, dash, e, f, dash', g, h] =>
    if [a, b, c, d, e, f, g, h].all isDigit ∧ dash = ch '-' ∧ dash' = ch '-' then
      some (natOf [a, b, c, d], natOf [e, f], natOf [g, h])
    else none
  | _ => none

/-- `daysInMonth`: the day before the next month begins, or `NaN`. -/
def daysInMonth (year month : ℤ) : Option ℤ :=
  (timeClip ((monthStart (12 * year + month) - 1) * msPerDay)).map fun ms =>
    dayOfMonth (ms / msPerDay)

structure IsoParts where
  y : ℤ
  m : ℤ
  d : ℤ
deriving DecidableEq, Repr

def parseIsoDay (iso : Text) : Option IsoParts :=
  match isoDayMatch iso with
  | none => none
  | some (y, m, d) =>
    if m < 1 ∨ m > 12 ∨ d < 1 ∨ (daysInMonth y m).any fun last => last < (d : ℤ) then none
    else some ⟨y, m, d⟩

/-- `String(n).padStart(width, "0")` -/
def padStart (width : ℕ) (t : Text) : Text := List.replicate (width - t.length) (ch '0') ++ t

/-- `addMonthsIso` of the identity rules: a day that the month does not have is its last. -/
def Identity.addMonthsIso (iso : Text) (months : ℤ) : Option Text :=
  match parseIsoDay iso with
  | none => none
  | some p =>
    let total := p.y * 12 + (p.m - 1) + months
    let y := total / 12
    let m := total - y * 12 + 1
    -- `Math.min` with a `NaN` is `NaN`
    let d := ((daysInMonth y m).map fun last => intText (min p.d last)).getD (js "NaN")
    some (padStart 4 (intText y) ++ ch '-' :: (padStart 2 (intText m) ++ ch '-' :: padStart 2 d))

/-! ## The law -/

/-- A date of the calendar that an ISO day writes. -/
structure CalendarDate where
  year : ℕ
  month : ℕ
  day : ℕ
  year_hi : year ≤ 9999
  month_lo : 1 ≤ month
  month_hi : month ≤ 12
  day_lo : 1 ≤ day
  day_hi : (day : ℤ) ≤ monthDays (12 * year + (month - 1))

namespace CalendarDate

variable (d : CalendarDate)

/-- The month of a date, counted from the year 0 on. -/
def monthNumber : ℤ := 12 * d.year + (d.month - 1)

/-- The day of a date, counted from 1970 on. -/
def number : ℤ := monthStart d.monthNumber + (d.day - 1)

/-- `2026-01-31` -/
def text : Text := zeroed 4 d.year ++ ch '-' :: (pad d.month ++ ch '-' :: pad d.day)

/-- The same day so many months later, or the last day of a shorter month. -/
def dueDay (n : ℤ) : ℤ :=
  monthStart (d.monthNumber + n) + (min (d.day : ℤ) (monthDays (d.monthNumber + n)) - 1)

end CalendarDate

/-- All three give one date, which is the day due. -/
structure SameDueDate (d : CalendarDate) (n : ℤ) : Prop where
  review : ∀ since level criticality criticalMaxMonths, since / msPerDay = d.number →
    reviewMonths level criticality criticalMaxMonths = n →
    nextReviewDate since (some level) criticality criticalMaxMonths =
      .ok (some (isoDay (d.dueDay n * msPerDay)))
  training : ∀ base, base / msPerDay = d.number →
    Trainings.addMonthsIso 0 base n = .ok (isoDay (d.dueDay n * msPerDay))
  identity : Identity.addMonthsIso d.text n = some (isoDay (d.dueDay n * msPerDay))

/-- The month due has the day, and its year has four digits. -/
def DayExists (d : CalendarDate) (n : ℤ) : Prop :=
  (d.day : ℤ) ≤ monthDays (d.monthNumber + n) ∧
    0 ≤ (d.monthNumber + n) / 12 ∧ (d.monthNumber + n) / 12 ≤ 9999

/-! ## Texts of days -/

/-- The parts of a day as `toISOString` writes it. -/
theorem isoDay_eq (ms : ℤ) :
    isoDay ms = (yearText (monthOf (ms / msPerDay) / 12) ++ ch '-' ::
      (pad ((monthOf (ms / msPerDay) % 12).toNat + 1) ++ ch '-' ::
        pad (dayOfMonth (ms / msPerDay)).toNat)).take 10 := by
  unfold isoDay
  rw [civilDay_eq]

/-- In a year of four digits nothing of the text is cut off. -/
theorem isoDay_of_year {ms : ℤ} (h0 : 0 ≤ monthOf (ms / msPerDay) / 12)
    (h1 : monthOf (ms / msPerDay) / 12 ≤ 9999) :
    isoDay ms = zeroed 4 (monthOf (ms / msPerDay) / 12).toNat ++ ch '-' ::
      (pad ((monthOf (ms / msPerDay) % 12).toNat + 1) ++ ch '-' ::
        pad (dayOfMonth (ms / msPerDay)).toNat) := by
  have hday := dayOfMonth_bounds (ms / msPerDay)
  have hdays := monthDays_bounds (monthOf (ms / msPerDay))
  rw [isoDay_eq]
  unfold yearText
  have hyear : (monthOf (ms / msPerDay) / 12).natAbs = (monthOf (ms / msPerDay) / 12).toNat := by
    omega
  rw [if_pos ⟨h0, h1⟩, hyear]
  apply List.take_of_length_le
  rw [List.length_append, List.length_cons, List.length_append, List.length_cons,
    zeroed_length (by norm_num) (by omega), pad_length (by omega), pad_length (by omega)]

theorem dayOfMonth_start {month day : ℤ} (h0 : 1 ≤ day) (h1 : day ≤ monthDays month) :
    monthOf (monthStart month + (day - 1)) = month ∧
      dayOfMonth (monthStart month + (day - 1)) = day := by
  unfold monthDays at h1
  have hmonth : monthOf (monthStart month + (day - 1)) = month := by
    apply monthOf_eq <;> omega
  refine ⟨hmonth, ?_⟩
  unfold dayOfMonth
  rw [hmonth]
  omega

theorem ediv_msPerDay (n : ℤ) : n * msPerDay / msPerDay = n :=
  Int.mul_ediv_cancel n (by decide)

/-! ## Instants of a date -/

namespace CalendarDate

variable (d : CalendarDate)

theorem monthNumber_bounds : 0 ≤ d.monthNumber ∧ d.monthNumber ≤ 12 * 9999 + 11 := by
  have h1 := d.year_hi
  have h2 := d.month_lo
  have h3 := d.month_hi
  unfold monthNumber
  omega

theorem monthOf_number : monthOf d.number = d.monthNumber ∧ dayOfMonth d.number = d.day :=
  dayOfMonth_start (by exact_mod_cast d.day_lo) d.day_hi

theorem day_le : d.day ≤ 31 := by
  have h1 := d.day_hi
  have h2 := (monthDays_bounds (12 * d.year + (d.month - 1))).2
  omega

theorem monthOf_dueDay (n : ℤ) : monthOf (d.dueDay n) = d.monthNumber + n ∧
    dayOfMonth (d.dueDay n) = min (d.day : ℤ) (monthDays (d.monthNumber + n)) := by
  have h1 := d.day_lo
  have h2 := (monthDays_bounds (d.monthNumber + n)).1
  exact dayOfMonth_start (by omega) (min_le_right _ _)

/-- The day due never goes back when the date goes on. -/
theorem dueDay_mono {d d' : CalendarDate} (h : d.number ≤ d'.number) (n : ℤ) :
    d.dueDay n ≤ d'.dueDay n := by
  have hmonth := monthOf_mono h
  rw [d.monthOf_number.1, d'.monthOf_number.1] at hmonth
  rcases hmonth.lt_or_eq with hlt | heq
  · have hnext := monthStart_mono (show d.monthNumber + n + 1 ≤ d'.monthNumber + n by omega)
    have h1 := min_le_right (d.day : ℤ) (monthDays (d.monthNumber + n))
    have h2 := d'.day_lo
    have h3 := (monthDays_bounds (d'.monthNumber + n)).1
    unfold dueDay
    unfold monthDays at h1 h3 ⊢
    omega
  · unfold number at h
    unfold dueDay
    rw [heq] at h ⊢
    have hday : (d.day : ℤ) ≤ d'.day := by omega
    have := min_le_min_right (monthDays (d'.monthNumber + n)) hday
    omega

end CalendarDate

/-- Where `setMonth` gets to: the day is counted on, whether the month has it or not. -/
theorem monthsLater_day {d : CalendarDate} {t : ℤ} (h : t / msPerDay = d.number) (n : ℤ) :
    monthsLater 0 n t / msPerDay = monthStart (d.monthNumber + n) + (d.day - 1) := by
  unfold monthsLater
  dsimp only
  rw [add_zero, sub_zero, h, d.monthOf_number.1, d.monthOf_number.2]
  have h0 := Int.emod_nonneg t (show msPerDay ≠ 0 by decide)
  have h1 := Int.emod_lt_of_pos t (show 0 < msPerDay by decide)
  unfold msPerDay at *
  omega

/-- The years of four digits lie within what a date holds. -/
theorem timeClip_of_month {ms : ℤ} (h0 : 0 ≤ monthOf (ms / msPerDay))
    (h1 : monthOf (ms / msPerDay) ≤ 12 * 9999 + 11) : timeClip ms = some ms := by
  have hspec := monthOf_spec (ms / msPerDay)
  have hlo := monthStart_mono h0
  have hhi := monthStart_mono (show monthOf (ms / msPerDay) + 1 ≤ 12 * 10000 by omega)
  have hfirst : monthStart 0 = -719528 := by decide
  have hlast : monthStart (12 * 10000) = 2932897 := by decide
  unfold timeClip
  rw [if_pos]
  rw [abs_le]
  unfold msPerDay at *
  omega

/-- In a year of four digits the text of a date is the one of its day. -/
theorem isoDay_congr {ms ms' : ℤ} (h : ms / msPerDay = ms' / msPerDay) : isoDay ms = isoDay ms' := by
  unfold isoDay
  rw [h]

theorem daysInMonth_eq {y m : ℤ} (h0 : 0 ≤ 12 * y + m - 1)
    (h1 : 12 * y + m - 1 ≤ 12 * 9999 + 11) :
    daysInMonth y m = some (monthDays (12 * y + m - 1)) := by
  have hdays := (monthDays_bounds (12 * y + m - 1)).1
  have hlast : monthStart (12 * y + m) - 1 =
      monthStart (12 * y + m - 1) + (monthDays (12 * y + m - 1) - 1) := by
    unfold monthDays
    rw [sub_add_cancel]
    ring
  obtain ⟨hmonth, hday⟩ := @dayOfMonth_start (12 * y + m - 1) _ (by omega) le_rfl
  unfold daysInMonth
  rw [hlast, timeClip_of_month (by rwa [ediv_msPerDay, hmonth]) (by rwa [ediv_msPerDay, hmonth]),
    Option.map_some, ediv_msPerDay, hday]

/-! ## The identity rules read a date -/

theorem two_digits {n : ℕ} (h : n < 100) : ∃ a b, pad n = [a, b] := by
  have := pad_length h
  match hp : pad n with
  | [a, b] => exact ⟨a, b, rfl⟩
  | [] | [_] | _ :: _ :: _ :: _ => rw [hp] at this; simp at this

theorem four_digits {n : ℕ} (h : n ≤ 9999) : ∃ a b c d, zeroed 4 n = [a, b, c, d] := by
  have := @zeroed_length 4 n (by norm_num) (by omega)
  match hp : zeroed 4 n with
  | [a, b, c, d] => exact ⟨a, b, c, d, rfl⟩
  | [] | [_] | [_, _] | [_, _, _] | _ :: _ :: _ :: _ :: _ :: _ => rw [hp] at this; simp at this

theorem isoDayMatch_text (d : CalendarDate) :
    isoDayMatch d.text = some (d.year, d.month, d.day) := by
  obtain ⟨a, b, c, e, hyear⟩ := four_digits d.year_hi
  obtain ⟨f, g, hmonth⟩ := two_digits (show d.month < 100 by have := d.month_hi; omega)
  obtain ⟨k, l, hday⟩ := two_digits (show d.day < 100 by have := d.day_le; omega)
  have hy := zeroed_digits 4 d.year
  have hm := pad_digits d.month
  have hd := pad_digits d.day
  have hy' := natOf_zeroed 4 d.year
  have hm' := natOf_pad d.month
  have hd' := natOf_pad d.day
  unfold CalendarDate.text
  rw [hyear] at hy hy' ⊢
  rw [hmonth] at hm hm' ⊢
  rw [hday] at hd hd' ⊢
  simp only [List.mem_cons, List.not_mem_nil, or_false, forall_eq_or_imp, forall_eq] at hy hm hd
  simp [isoDayMatch, hy, hm, hd, hy', hm', hd']

theorem parseIsoDay_text (d : CalendarDate) :
    parseIsoDay d.text = some ⟨d.year, d.month, d.day⟩ := by
  have hmonth := d.monthNumber_bounds
  have h1 := d.month_lo
  have h2 := d.month_hi
  have h3 := d.day_lo
  have h4 := d.day_hi
  unfold CalendarDate.monthNumber at hmonth
  unfold parseIsoDay
  rw [isoDayMatch_text]
  dsimp only
  rw [daysInMonth_eq (by omega) (by omega), if_neg]
  rw [show 12 * (d.year : ℤ) + d.month - 1 = 12 * d.year + (d.month - 1) by ring]
  simp only [Option.any_some, decide_eq_true_eq]
  omega

/-- A date is written as `toISOString` writes its day. -/
theorem text_eq_isoDay (d : CalendarDate) : d.text = isoDay (d.number * msPerDay) := by
  have hmonth := d.monthNumber_bounds
  have h1 := d.month_lo
  have h2 := d.month_hi
  rw [isoDay_of_year (by rw [ediv_msPerDay, d.monthOf_number.1]; omega)
    (by rw [ediv_msPerDay, d.monthOf_number.1]; omega), ediv_msPerDay, d.monthOf_number.1,
    d.monthOf_number.2]
  unfold CalendarDate.text CalendarDate.monthNumber
  rw [show ((12 * (d.year : ℤ) + (d.month - 1)) / 12).toNat = d.year by omega,
    show ((12 * (d.year : ℤ) + (d.month - 1)) % 12).toNat + 1 = d.month by omega, Int.toNat_natCast]

/-! ## The dates they give -/

theorem padStart_intText (width : ℕ) {z : ℤ} (h : 0 ≤ z) :
    padStart width (intText z) = zeroed width z.toNat := by
  obtain ⟨n, rfl⟩ := Int.eq_ofNat_of_zero_le h
  rfl

theorem le_padStart_length (width : ℕ) (t : Text) : width ≤ (padStart width t).length := by
  unfold padStart
  rw [List.length_append, List.length_replicate]
  omega

/-- The month that the identity rules count to. -/
theorem identity_total (d : CalendarDate) (n : ℤ) :
    (d.year : ℤ) * 12 + (d.month - 1) + n = d.monthNumber + n := by
  unfold CalendarDate.monthNumber
  ring

/-- In years of four digits the identity rules give the day due. -/
theorem identity_of_year {d : CalendarDate} {n : ℤ} (h0 : 0 ≤ (d.monthNumber + n) / 12)
    (h1 : (d.monthNumber + n) / 12 ≤ 9999) :
    Identity.addMonthsIso d.text n = some (isoDay (d.dueDay n * msPerDay)) := by
  obtain ⟨hmonth, hday⟩ := d.monthOf_dueDay n
  have hdays := (monthDays_bounds (d.monthNumber + n)).1
  have hlo := d.day_lo
  unfold Identity.addMonthsIso
  rw [parseIsoDay_text]
  dsimp only
  rw [identity_total]
  generalize hm : d.monthNumber + n = month at *
  rw [daysInMonth_eq (by omega) (by omega),
    show 12 * (month / 12) + (month - month / 12 * 12 + 1) - 1 = month by ring,
    Option.map_some, Option.getD_some, padStart_intText 4 h0, padStart_intText 2 (by omega),
    padStart_intText 2 (by omega), isoDay_of_year (by rwa [ediv_msPerDay, hmonth])
      (by rwa [ediv_msPerDay, hmonth]), ediv_msPerDay, hmonth, hday]
  rw [show (month - month / 12 * 12 + 1).toNat = (month % 12).toNat + 1 by omega]
  rfl

theorem isoDay_length (ms : ℤ) : (isoDay ms).length ≤ 10 := by
  rw [isoDay_eq]
  exact List.length_take_le _ _

/-- Four units for a year before the year 0 are not the first four of six digits and a sign. -/
theorem padStart_ne_year {k : ℕ} (hk : k ≠ 0) (h : (decimal k).length ≤ 3) (r : Text) :
    padStart 4 (ch '-' :: decimal k) ≠ ((ch '-' :: zeroed 6 k) ++ r).take (min 4 10) := by
  have hzeros : ((ch '-' :: zeroed 6 k) ++ r).take (min 4 10) =
      ch '-' :: List.replicate 3 (ch '0') := by
    unfold zeroed
    obtain ⟨j, hj⟩ : ∃ j, 6 - (decimal k).length = 3 + j := ⟨3 - (decimal k).length, by omega⟩
    rw [hj, List.replicate_add]
    rfl
  rw [hzeros]
  unfold padStart
  intro heq
  cases hcount : 4 - (ch '-' :: decimal k).length with
  | zero =>
    rw [hcount, List.replicate_zero, List.nil_append] at heq
    have hvalue := congrArg natOf (List.cons.inj heq).2
    rw [natOf_decimal] at hvalue
    exact hk (hvalue.trans (by decide))
  | succ n =>
    rw [hcount, List.replicate_succ, List.cons_append] at heq
    exact absurd (List.cons.inj heq).1 (by decide)

/-- The identity rules write a year with a sign, or of five digits, otherwise than
`toISOString` does. -/
theorem year_of_identity {d : CalendarDate} {n : ℤ}
    (h : Identity.addMonthsIso d.text n = some (isoDay (d.dueDay n * msPerDay))) :
    0 ≤ (d.monthNumber + n) / 12 ∧ (d.monthNumber + n) / 12 ≤ 9999 := by
  have hmonth := (d.monthOf_dueDay n).1
  unfold Identity.addMonthsIso at h
  rw [parseIsoDay_text] at h
  dsimp only at h
  rw [identity_total] at h
  generalize hy : (d.monthNumber + n) / 12 = y at *
  have htext := Option.some.inj h
  have hlength := congrArg List.length htext
  have hten := isoDay_length (d.dueDay n * msPerDay)
  have hmonthPart := le_padStart_length 2 (intText (d.monthNumber + n - y * 12 + 1))
  have hyearPart := le_padStart_length 4 (intText y)
  rw [List.length_append, List.length_cons, List.length_append, List.length_cons] at hlength
  have hdayPart := le_padStart_length 2 (((daysInMonth y (d.monthNumber + n - y * 12 + 1)).map
    fun last => intText (min (d.day : ℤ) last)).getD (js "NaN"))
  have hfour : (padStart 4 (intText y)).length = 4 := by omega
  have hshort : (intText y).length ≤ 4 := by
    unfold padStart at hfour
    rw [List.length_append] at hfour
    omega
  by_cases hneg : y < 0
  · -- A negative year of at most three digits: `toISOString` writes three zeros of six.
    exfalso
    have hint : intText y = ch '-' :: decimal y.natAbs := by
      unfold intText
      rw [if_pos hneg]
    have hdigits : (decimal y.natAbs).length ≤ 3 := by
      rw [hint, List.length_cons] at hshort
      omega
    have hstart := congrArg (List.take 4) htext
    rw [List.take_left' hfour, isoDay_eq, ediv_msPerDay, hmonth, hy, List.take_take] at hstart
    unfold yearText at hstart
    rw [if_neg (by omega), if_pos hneg, hint] at hstart
    exact absurd hstart (padStart_ne_year (by omega) hdigits _)
  · refine ⟨not_lt.mp hneg, ?_⟩
    obtain ⟨k, rfl⟩ := Int.eq_ofNat_of_zero_le (not_lt.mp hneg)
    have := (decimal_length_le (n := k) (k := 4) (by norm_num)).mp hshort
    omega

/-- Where the month due has the day, `setMonth` gets to the day due. -/
theorem setMonth_of_exists {d : CalendarDate} {n t : ℤ} (h : DayExists d n)
    (ht : t / msPerDay = d.number) :
    isoDate (setMonth 0 n t) = .ok (isoDay (d.dueDay n * msPerDay)) := by
  obtain ⟨hday, h0, h1⟩ := h
  have hto : monthsLater 0 n t / msPerDay = d.dueDay n := by
    rw [monthsLater_day ht]
    unfold CalendarDate.dueDay
    rw [min_eq_left hday]
  have hmonth := (d.monthOf_dueDay n).1
  unfold setMonth
  rw [timeClip_of_month (by rw [hto, hmonth]; omega) (by rw [hto, hmonth]; omega)]
  exact congrArg Except.ok (isoDay_congr (by rw [hto, ediv_msPerDay]))

/-- A day that the month due does not have lies in the month after. -/
theorem monthsLater_runs_over {d : CalendarDate} {n t : ℤ} (ht : t / msPerDay = d.number)
    (h : monthDays (d.monthNumber + n) < d.day) :
    monthOf (monthsLater 0 n t / msPerDay) = d.monthNumber + n + 1 := by
  have hday := d.day_le
  have h28 := (monthDays_bounds (d.monthNumber + n)).1
  have h28' := (monthDays_bounds (d.monthNumber + n + 1)).1
  rw [monthsLater_day ht]
  apply monthOf_eq
  · unfold monthDays at h
    omega
  · unfold monthDays at h h28 h28'
    omega

/-- December has 31 days. -/
theorem no_run_over_december {d : CalendarDate} {n : ℤ}
    (h : monthDays (d.monthNumber + n) < d.day) :
    (d.monthNumber + n + 1) / 12 = (d.monthNumber + n) / 12 ∧
      (d.monthNumber + n + 1) % 12 = (d.monthNumber + n) % 12 + 1 := by
  have hday := d.day_le
  by_cases hlast : (d.monthNumber + n) % 12 = 11
  · have := monthDays_last ((d.monthNumber + n) / 12)
    rw [show 12 * ((d.monthNumber + n) / 12) + 11 = d.monthNumber + n by omega] at this
    omega
  · omega

/-- Texts of days of one year tell its months apart. -/
theorem isoDay_month {ms ms' : ℤ} (h0 : 0 ≤ monthOf (ms / msPerDay) / 12)
    (h1 : monthOf (ms / msPerDay) / 12 ≤ 9999)
    (hyear : monthOf (ms' / msPerDay) / 12 = monthOf (ms / msPerDay) / 12)
    (h : isoDay ms = isoDay ms') :
    monthOf (ms / msPerDay) % 12 = monthOf (ms' / msPerDay) % 12 := by
  rw [isoDay_of_year h0 h1, isoDay_of_year (by rwa [hyear]) (by rwa [hyear]), hyear] at h
  have hrest := List.append_cancel_left h
  have hlen {m : ℤ} : (pad ((m % 12).toNat + 1)).length = 2 := pad_length (by omega)
  have hmonth := (List.append_inj (List.cons.inj hrest).2 (hlen.trans hlen.symm)).1
  have := pad_injective hmonth
  omega

/-- The three agree where, and only where, the month due has the day. -/
theorem same_due_date_iff (d : CalendarDate) (n : ℤ) : SameDueDate d n ↔ DayExists d n := by
  refine ⟨fun h => ?_, fun h =>
    ⟨?_, fun base => setMonth_of_exists h, identity_of_year h.2.1 h.2.2⟩⟩
  · obtain ⟨h0, h1⟩ := year_of_identity h.identity
    refine ⟨?_, h0, h1⟩
    by_contra hlong
    have htraining := h.training (d.number * msPerDay) (ediv_msPerDay _)
    have hover := monthsLater_runs_over (ediv_msPerDay d.number) (not_le.mp hlong)
    obtain ⟨hyear, hmonth⟩ := no_run_over_december (not_le.mp hlong)
    have hdue := (d.monthOf_dueDay n).1
    unfold Trainings.addMonthsIso setMonth at htraining
    rw [timeClip_of_month (by rw [hover]; omega) (by rw [hover]; omega)] at htraining
    have htext := Except.ok.inj htraining
    have := isoDay_month (by rwa [hover, hyear]) (by rwa [hover, hyear])
      (by rw [ediv_msPerDay, hdue, hover, hyear]) htext
    rw [hover, ediv_msPerDay, hdue] at this
    omega
  · intro since level criticality criticalMaxMonths hsince hmonths
    unfold nextReviewDate
    dsimp only
    rw [hmonths, setMonth_of_exists h hsince]
    rfl

/-- The three intervals agree exactly where the month due has the day; the day due lies in
the month due and never goes back. -/
theorem month_intervals_agree (d : CalendarDate) (n : ℤ) :
    (SameDueDate d n ↔ DayExists d n) ∧
    monthOf (d.dueDay n) = d.monthNumber + n ∧
    ∀ d' : CalendarDate, d.number ≤ d'.number → d.dueDay n ≤ d'.dueDay n :=
  ⟨same_due_date_iff d n, (d.monthOf_dueDay n).1, fun _ h => CalendarDate.dueDay_mono h n⟩

/-- A month after 2026-01-31 is the last of February, and not the third of March. -/
theorem end_of_january :
    ¬ SameDueDate ⟨2026, 1, 31, by decide, by decide, by decide, by decide, by decide⟩ 1 := by
  intro h
  have htraining := h.training 1769817600000 (by decide)
  exact absurd htraining (by decide)

end Klick.MonthIntervals
