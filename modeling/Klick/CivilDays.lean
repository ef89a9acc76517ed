-- Instants as `Date` counts them, in milliseconds since 1970, and the days of UTC
-- that they fall on.
import Klick.IsoDays
import Klick.Schema

namespace Js

/-- `86_400_000` and `3_600_000` -/
def msPerDay : ℤ := 86400000

def msPerHour : ℤ := 3600000

/-- A date of the Gregorian calendar. -/
structure CivilDay where
  year : ℤ
  month : ℕ
  day : ℕ
deriving DecidableEq, Repr

/-- The date of a day, counted from 1970-01-01 on: years that begin in March, in eras of
400 of them. -/
def civilDay (n : ℤ) : CivilDay :=
  let z := n + 719468
  let era := z / 146097
  let dayOfEra := (z % 146097).toNat
  let yearOfEra := (dayOfEra - dayOfEra / 1460 + dayOfEra / 36524 - dayOfEra / 146096) / 365
  let dayOfYear := dayOfEra - (365 * yearOfEra + yearOfEra / 4 - yearOfEra / 100)
  let month := (5 * dayOfYear + 2) / 153
  let day := dayOfYear - (153 * month + 2) / 5 + 1
  ⟨yearOfEra + era * 400 + (if month < 10 then 0 else 1),
    if month < 10 then month + 3 else month - 9, day⟩

/-- A number with zeros before it. -/
def zeroed (width n : ℕ) : Text := List.replicate (width - (decimal n).length) (ch '0') ++ decimal n

theorem zeroed_length {width n : ℕ} (hw : 0 < width) (h : n < 10 ^ width) :
    (zeroed width n).length = width := by
  have := (decimal_length_le (n := n) hw).mpr h
  unfold zeroed
  rw [List.length_append, List.length_replicate]
  omega

theorem zeroed_digits (width n : ℕ) : ∀ u ∈ zeroed width n, isDigit u = true := by
  intro u hu
  rcases List.mem_append.mp hu with hu | hu
  · rw [List.eq_of_mem_replicate hu]
    decide
  · exact decimal_digits n u hu

theorem natOf_zeroed (width n : ℕ) : natOf (zeroed width n) = n := by
  unfold zeroed
  rw [natOf_zeros, natOf_decimal]

/-- Four digits, or a sign and six. -/
def yearText (y : ℤ) : Text :=
  if 0 ≤ y ∧ y ≤ 9999 then zeroed 4 y.natAbs
  else (if y < 0 then ch '-' else ch '+') :: zeroed 6 y.natAbs

/-- `date.toISOString().slice(0, 10)` -/
def isoDay (ms : ℤ) : Text :=
  let d := civilDay (ms / msPerDay)
  (yearText d.year ++ ch '-' :: (pad d.month ++ ch '-' :: pad d.day)).take 10

example : civilDay 0 = ⟨1970, 1, 1⟩ := by decide

example : civilDay 11016 = ⟨2000, 2, 29⟩ := by decide

/-- `date.getUTCDay()`, where 0 is a Sunday. -/
def weekday (ms : ℤ) : ℤ := (ms / msPerDay + 4) % 7

/-- A date a year before, `setUTCFullYear(getUTCFullYear() - 1)`. -/
def yearEarlier (ms : ℤ) : ℤ :=
  let d := civilDay (ms / msPerDay)
  Schema.dayNumber (d.year - 1).toNat d.month d.day * msPerDay + ms % msPerDay

end Js
