-- The hold after a suspicious activity report: weekdays counted on from the instant of the
-- report, the figures of the register, and the day the hold ends.
import Klick.Binary64
import Klick.CivilDays
import Klick.Loops

namespace Klick.Aml

open Js

/-! ## Weekdays -/

/-- Monday to Friday, over the days since 1970. -/
def IsWeekday (n : ℤ) : Prop := (n + 4) % 7 ≠ 0 ∧ (n + 4) % 7 ≠ 6

instance : DecidablePred IsWeekday := fun _ => inferInstanceAs (Decidable (_ ∧ _))

/-- The weekdays up to a day: five a week, counted from a Sunday on. -/
def weekdaysTo (n : ℤ) : ℤ := 5 * ((n + 4) / 7) + min ((n + 4) % 7) 5

theorem weekdaysTo_succ (n : ℤ) :
    weekdaysTo (n + 1) = weekdaysTo n + if IsWeekday (n + 1) then 1 else 0 := by
  unfold weekdaysTo IsWeekday
  split_ifs <;> omega

theorem weekdaysTo_mono {n n' : ℤ} (h : n ≤ n') : weekdaysTo n ≤ weekdaysTo n' := by
  unfold weekdaysTo
  omega

/-- Before a weekday there are fewer of them. -/
theorem weekdaysTo_lt {n n' : ℤ} (h : n < n') (hday : IsWeekday n') :
    weekdaysTo n < weekdaysTo n' := by
  unfold IsWeekday at hday
  unfold weekdaysTo
  omega

/-- A weekday is found again by its number. -/
theorem weekday_unique {n n' : ℤ} (h : IsWeekday n) (h' : IsWeekday n')
    (heq : weekdaysTo n = weekdaysTo n') : n = n' := by
  rcases lt_trichotomy n n' with hlt | hsame | hgt
  · have := weekdaysTo_lt hlt h'
    omega
  · exact hsame
  · have := weekdaysTo_lt hgt h
    omega

/-- The weekday with a number. -/
theorem exists_weekday (k : ℤ) : ∃ n, IsWeekday n ∧ weekdaysTo n = k := by
  refine ⟨7 * ((k - 1) / 5) + (k - 1) % 5 + 1 - 4, ?_, ?_⟩
  · unfold IsWeekday
    omega
  · unfold weekdaysTo
    omega

/-- The k-th weekday after a day. -/
def NthWeekdayAfter (k : ℕ) (n d : ℤ) : Prop :=
  IsWeekday d ∧ n < d ∧ ((Finset.Ioc n d).filter IsWeekday).card = k

theorem card_weekdays {n d : ℤ} (h : n ≤ d) :
    (((Finset.Ioc n d).filter IsWeekday).card : ℤ) = weekdaysTo d - weekdaysTo n := by
  induction d, h using Int.leInduction with
  | base => simp
  | succ d hd ih =>
    have hset : Finset.Ioc n (d + 1) = insert (d + 1) (Finset.Ioc n d) := by
      ext x
      simp only [Finset.mem_Ioc, Finset.mem_insert]
      omega
    have hnew : d + 1 ∉ (Finset.Ioc n d).filter IsWeekday := by simp
    rw [hset, Finset.filter_insert, weekdaysTo_succ]
    split_ifs with hday
    · rw [Finset.card_insert_of_notMem hnew]
      push_cast
      omega
    · omega

theorem nthWeekdayAfter_iff {k : ℕ} (hk : 1 ≤ k) (n d : ℤ) :
    NthWeekdayAfter k n d ↔ IsWeekday d ∧ weekdaysTo d = weekdaysTo n + k := by
  unfold NthWeekdayAfter
  refine ⟨fun ⟨hday, hlt, hcard⟩ => ?_, fun ⟨hday, hcount⟩ => ?_⟩
  · have := card_weekdays hlt.le
    exact ⟨hday, by omega⟩
  · have hlt : n < d := by
      by_contra hle
      have := weekdaysTo_mono (not_lt.mp hle)
      omega
    have := card_weekdays hlt.le
    exact ⟨hday, hlt, by omega⟩

/-! ## Counting on -/

/-- `d` and `left` in `addBusinessDays` -/
structure Counting where
  d : ℤ
  left : ℤ

/-- A round of the loop: `setUTCDate(getUTCDate() + 1)` keeps the clock time. -/
def Counting.step (c : Counting) : ℤ ⊕ Counting :=
  if c.left > 0 then
    let d := c.d + msPerDay
    let wd := weekday d
    .inr ⟨d, if wd ≠ 0 ∧ wd ≠ 6 then c.left - 1 else c.left⟩
  else .inl c.d

/-- Three rounds for each day left, and fewer on a weekend. -/
def Counting.size (c : Counting) : ℕ :=
  (3 * c.left - (if weekday c.d = 6 then 1 else if weekday c.d = 0 then 2 else 0)).toNat

theorem day_succ (t : ℤ) : (t + msPerDay) / msPerDay = t / msPerDay + 1 := by
  unfold msPerDay
  omega

theorem weekday_iff (t : ℤ) : (weekday t ≠ 0 ∧ weekday t ≠ 6) ↔ IsWeekday (t / msPerDay) :=
  Iff.rfl

theorem Counting.step_shrinks (c c' : Counting) (h : c.step = .inr c') : c'.size < c.size := by
  unfold Counting.step at h
  split at h
  next hleft =>
    obtain rfl := Sum.inr.inj h
    have hday := day_succ c.d
    unfold Counting.size weekday
    dsimp only
    rw [hday]
    split_ifs <;> omega
  next => cases h

def counting : Loop Counting ℤ := ⟨Counting.step, Counting.size, Counting.step_shrinks⟩

def addBusinessDays (since days : ℤ) : ℤ := counting.run ⟨since, days⟩

def sarHoldUntil (reportedAt : ℤ) : ℤ := addBusinessDays reportedAt 3

theorem run_of_none_left {c : Counting} (h : c.left ≤ 0) : counting.run c = c.d := by
  apply counting.run_of_inl
  simp [counting, Counting.step, not_lt.mpr h]

theorem run_of_left {c : Counting} (h : 0 < c.left) :
    counting.run c = counting.run ⟨c.d + msPerDay,
      if IsWeekday (c.d / msPerDay + 1) then c.left - 1 else c.left⟩ := by
  apply counting.run_of_inr
  rw [← day_succ]
  simp [counting, Counting.step, h, weekday_iff]

theorem size_lt {c : Counting} (h : 0 < c.left) :
    Counting.size ⟨c.d + msPerDay,
      if IsWeekday (c.d / msPerDay + 1) then c.left - 1 else c.left⟩ < c.size := by
  apply Counting.step_shrinks
  rw [← day_succ]
  simp [Counting.step, h, weekday_iff]

/-- What the loop gives: the weekday with so many more before it, at the same time of day. -/
theorem run_spec (c : Counting) (h : 0 < c.left) :
    counting.run c % msPerDay = c.d % msPerDay ∧ IsWeekday (counting.run c / msPerDay) ∧
      weekdaysTo (counting.run c / msPerDay) = weekdaysTo (c.d / msPerDay) + c.left := by
  -- Each round goes a day on; the weekdays passed and the days left add up to the same.
  induction hn : c.size using Nat.strong_induction_on generalizing c with
  | _ n ih =>
    have hsmaller := size_lt h
    have hmod : (c.d + msPerDay) % msPerDay = c.d % msPerDay := by simp
    have hcount := weekdaysTo_succ (c.d / msPerDay)
    rw [run_of_left h]
    by_cases hday : IsWeekday (c.d / msPerDay + 1)
    · simp only [hday, if_true] at hsmaller hcount ⊢
      by_cases hlast : c.left = 1
      · rw [run_of_none_left (by simp [hlast]), day_succ, hmod, hcount, hlast]
        exact ⟨rfl, hday, rfl⟩
      · obtain ⟨htime, hweekday, hto⟩ := ih _ (hn ▸ hsmaller) ⟨c.d + msPerDay, c.left - 1⟩
          (by dsimp only; omega) rfl
        rw [day_succ] at hto
        exact ⟨htime.trans hmod, hweekday, by dsimp only at hto; omega⟩
    · simp only [hday, if_false] at hsmaller hcount ⊢
      obtain ⟨htime, hweekday, hto⟩ := ih _ (hn ▸ hsmaller) ⟨c.d + msPerDay, c.left⟩ h rfl
      rw [day_succ] at hto
      exact ⟨htime.trans hmod, hweekday, by dsimp only at hto; omega⟩

theorem addBusinessDays_zero (since : ℤ) : addBusinessDays since 0 = since :=
  run_of_none_left le_rfl

theorem addBusinessDays_time (since : ℤ) (n : ℕ) :
    addBusinessDays since n % msPerDay = since % msPerDay := by
  rcases Nat.eq_zero_or_pos n with rfl | hn
  · exact congrArg (· % msPerDay) (addBusinessDays_zero since)
  · exact (run_spec ⟨since, n⟩ (Int.natCast_pos.mpr hn)).1

theorem addBusinessDays_isWeekday (since : ℤ) {n : ℕ} (h : 1 ≤ n) :
    IsWeekday (addBusinessDays since n / msPerDay) :=
  (run_spec ⟨since, n⟩ (Int.natCast_pos.mpr h)).2.1

theorem weekdaysTo_addBusinessDays (since : ℤ) (n : ℕ) :
    weekdaysTo (addBusinessDays since n / msPerDay) = weekdaysTo (since / msPerDay) + n := by
  rcases Nat.eq_zero_or_pos n with rfl | hn
  · simpa using congrArg (fun t => weekdaysTo (t / msPerDay)) (addBusinessDays_zero since)
  · exact (run_spec ⟨since, n⟩ (Int.natCast_pos.mpr hn)).2.2

/-- An instant is found again by its day and its time of day. -/
theorem eq_of_day {t t' : ℤ} (hday : t / msPerDay = t' / msPerDay)
    (htime : t % msPerDay = t' % msPerDay) : t = t' := by
  rw [← Int.mul_ediv_add_emod t msPerDay, ← Int.mul_ediv_add_emod t' msPerDay, hday, htime]

/-- Counting on in two goes is counting on in one. -/
theorem addBusinessDays_add (since : ℤ) (n m : ℕ) :
    addBusinessDays since (n + m : ℕ) = addBusinessDays (addBusinessDays since n) m := by
  rcases Nat.eq_zero_or_pos m with rfl | hm
  · exact (addBusinessDays_zero _).symm
  · apply eq_of_day
    · apply weekday_unique (addBusinessDays_isWeekday _ (by omega)) (addBusinessDays_isWeekday _ hm)
      rw [weekdaysTo_addBusinessDays, weekdaysTo_addBusinessDays, weekdaysTo_addBusinessDays]
      push_cast
      ring
    · rw [addBusinessDays_time, addBusinessDays_time, addBusinessDays_time]

theorem addBusinessDays_lt_succ (since : ℤ) (n : ℕ) :
    addBusinessDays since n < addBusinessDays since (n + 1 : ℕ) := by
  have hcount := weekdaysTo_addBusinessDays since n
  have hcount' := weekdaysTo_addBusinessDays since (n + 1)
  have hday : addBusinessDays since n / msPerDay <
      addBusinessDays since (n + 1 : ℕ) / msPerDay := by
    by_contra hle
    have := weekdaysTo_mono (not_lt.mp hle)
    push_cast at hcount' this
    omega
  by_contra hle
  have := Int.ediv_le_ediv (show 0 < msPerDay by decide) (not_lt.mp hle)
  omega

theorem addBusinessDays_strictMono (since : ℤ) :
    StrictMono fun n : ℕ => addBusinessDays since n :=
  strictMono_nat_of_lt_succ (addBusinessDays_lt_succ since)

/-- It lands on the weekday asked for. -/
theorem addBusinessDays_nth (since : ℤ) {n : ℕ} (h : 1 ≤ n) (d : ℤ) :
    NthWeekdayAfter n (since / msPerDay) d ↔ d = addBusinessDays since n / msPerDay := by
  rw [nthWeekdayAfter_iff h]
  refine ⟨fun ⟨hday, hcount⟩ => ?_, ?_⟩
  · apply weekday_unique hday (addBusinessDays_isWeekday since h)
    rw [hcount, weekdaysTo_addBusinessDays]
  · rintro rfl
    exact ⟨addBusinessDays_isWeekday since h, weekdaysTo_addBusinessDays since n⟩

/-! ## The register -/

inductive SuspiciousKind where
  | gwgSar
  | micarStor
deriving DecidableEq, Repr

inductive SuspiciousStatus where
  | review
  | reported
  | dismissed
deriving DecidableEq, Repr

structure SuspiciousRow where
  kind : SuspiciousKind
  status : SuspiciousStatus
  detectedAt : ℤ
  decidedAt : Option ℤ
  reportedAt : Option ℤ
  holdUntil : Option ℤ

structure SuspiciousStats where
  inReview : ℕ
  onHold : ℕ
  reportedThisYear : ℕ
  dismissedThisYear : ℕ
  byKind : SuspiciousKind → ℕ
  avgDecisionDays : Option ℚ

/-- Reported, and the hold still runs. -/
def SuspiciousRow.isOnHold (now : ℤ) (r : SuspiciousRow) : Bool :=
  r.status = .reported && r.holdUntil.any (now < ·)

/-- The mean of the days to a decision, with one decimal. -/
def avgDecisionDays (rows : List SuspiciousRow) : Option ℚ :=
  let decisionDays := rows.filterMap fun r =>
    r.decidedAt.map fun decidedAt => fl (fl (decidedAt - r.detectedAt : ℤ) / msPerDay)
  if decisionDays.length = 0 then none
  else some (fl (mathRound
    (fl (fl (decisionDays.foldl (fun a b => fl (a + b)) 0 / decisionDays.length) * 10)) / 10))

/-- The figures of the register, where `getFullYear` is the year by the clock on the wall. -/
def aggregateSuspicious (getFullYear : ℤ → ℤ) (rows : List SuspiciousRow) (now : ℤ) :
    SuspiciousStats where
  inReview := rows.countP fun r => r.status = .review
  onHold := rows.countP (·.isOnHold now)
  reportedThisYear := rows.countP fun r =>
    r.status = .reported && r.decidedAt.map getFullYear = some (getFullYear now)
  dismissedThisYear := rows.countP fun r =>
    r.status = .dismissed && r.decidedAt.map getFullYear = some (getFullYear now)
  byKind kind := rows.countP fun r => r.kind = kind
  avgDecisionDays := avgDecisionDays rows

/-! ## The hold -/

/-- A report sent at an instant, as `decideSuspicious` stores it. -/
def IsReport (reportedAt : ℤ) (r : SuspiciousRow) : Prop :=
  r.status = .reported ∧ r.reportedAt = some reportedAt ∧
    r.holdUntil = some (sarHoldUntil reportedAt)

/-- The transaction is held until the third weekday after the report is over. -/
def HeldThreeDays (reportedAt : ℤ) : Prop :=
  ∀ d, NthWeekdayAfter 3 (reportedAt / msPerDay) d → (d + 1) * msPerDay ≤ sarHoldUntil reportedAt

/-- So long the figures count it as held. -/
def CountedThreeDays (reportedAt : ℤ) : Prop :=
  ∀ d, NthWeekdayAfter 3 (reportedAt / msPerDay) d →
    ∀ now, reportedAt ≤ now → now < (d + 1) * msPerDay →
      ∀ getFullYear r rows, IsReport reportedAt r →
        (aggregateSuspicious getFullYear (r :: rows) now).onHold =
          (aggregateSuspicious getFullYear rows now).onHold + 1

/-- The hold ends on the third weekday, at the time of day of the report. -/
theorem sarHoldUntil_lt {t d : ℤ} (h : NthWeekdayAfter 3 (t / msPerDay) d) :
    sarHoldUntil t < (d + 1) * msPerDay := by
  have hd := (addBusinessDays_nth t (by norm_num) d).mp h
  have hlast := Int.lt_ediv_add_one_mul_self (sarHoldUntil t) (show 0 < msPerDay by decide)
  rw [hd]
  exact hlast

theorem lt_sarHoldUntil (t : ℤ) : t < sarHoldUntil t := by
  have h : addBusinessDays t (0 : ℕ) < sarHoldUntil t :=
    addBusinessDays_strictMono t (show 0 < 3 by norm_num)
  rwa [Nat.cast_zero, addBusinessDays_zero] at h

/-- The hold ends on a third weekday. -/
theorem third_weekday (t : ℤ) : NthWeekdayAfter 3 (t / msPerDay) (sarHoldUntil t / msPerDay) :=
  (addBusinessDays_nth t (by norm_num) _).mpr rfl

theorem not_heldThreeDays (t : ℤ) : ¬ HeldThreeDays t := by
  intro hheld
  have hday := third_weekday t
  exact absurd (hheld _ hday) (not_le.mpr (sarHoldUntil_lt hday))

/-- From the end of the hold on a report is not counted. -/
theorem onHold_cons {t now : ℤ} {r : SuspiciousRow} (h : IsReport t r) (getFullYear : ℤ → ℤ)
    (rows : List SuspiciousRow) :
    (aggregateSuspicious getFullYear (r :: rows) now).onHold =
      (aggregateSuspicious getFullYear rows now).onHold + if now < sarHoldUntil t then 1 else 0 := by
  obtain ⟨hstatus, -, hhold⟩ := h
  unfold aggregateSuspicious
  dsimp only
  rw [List.countP_cons]
  simp [SuspiciousRow.isOnHold, hstatus, hhold]

theorem not_countedThreeDays (t : ℤ) : ¬ CountedThreeDays t := by
  intro hcounted
  have hday := third_weekday t
  have hreport : IsReport t ⟨.gwgSar, .reported, t, some t, some t, some (sarHoldUntil t)⟩ :=
    ⟨rfl, rfl, rfl⟩
  have h := hcounted _ hday (sarHoldUntil t) (lt_sarHoldUntil t).le (sarHoldUntil_lt hday)
    (fun _ => 0) _ [] hreport
  rw [onHold_cons hreport] at h
  simp at h

/-- No report is held, or counted as held, until its third weekday is over; counting on
weekdays adds up, goes on in time and lands on weekdays. -/
theorem sarHoldUntil_ends_within_the_third_weekday (since : ℤ) :
    (¬ HeldThreeDays since ∧ ¬ CountedThreeDays since) ∧
    (∀ n m : ℕ,
      addBusinessDays since (n + m : ℕ) = addBusinessDays (addBusinessDays since n) m) ∧
    (StrictMono fun n : ℕ => addBusinessDays since n) ∧
    ∀ n : ℕ, IsWeekday (addBusinessDays since (n + 1 : ℕ) / msPerDay) :=
  ⟨⟨not_heldThreeDays since, not_countedThreeDays since⟩, addBusinessDays_add since,
    addBusinessDays_strictMono since,
    fun n => addBusinessDays_isWeekday since (Nat.le_add_left 1 n)⟩

/-- A report of Thursday 2026-10-08, 15:00 is held until Tuesday 15:00. -/
theorem thursday_afternoon_report : ¬ HeldThreeDays 1791471600000 := by
  intro h
  exact absurd (h 20739 ⟨by decide, by decide, by decide⟩) (by decide)

end Klick.Aml
