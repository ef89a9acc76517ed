-- The calendar of obligations (`lib/compliance/obligations.ts`, and the planner of
-- `lib/compliance/obligations-service.ts`): from the frequency and the due rule the runs
-- whose due dates lie in a window, one for each period, known again by its label.
import Klick.IsoDays

open Js

namespace Klick.Obligations

/-! ## The schedule -/

inductive Frequency
  | perEvent | daily | weekly | monthly | quarterly | semiannual | annual | triennial
deriving DecidableEq, Repr

/-- A month of the calendar. -/
abbrev Month := { m : ℕ // 1 ≤ m ∧ m ≤ 12 }

/-- A day of the month as a rule names it; longer than the month, it is the last one. -/
abbrev MonthDay := { d : ℕ // 1 ≤ d }

inductive DueRule
  | fixed (month : Month) (day : MonthDay)
  | offset (days : ℤ) (ofPeriod : Bool)
  | quarterly (dayOfMonthAfterQuarter : MonthDay)
  | monthly (day : MonthDay)

structure ScheduleInput where
  frequency : Frequency
  dueRule : Option DueRule
  secondMonth : Option Month
  /-- For a triennial obligation the year of its first run. -/
  anchorYear : Option ℕ

structure PlannedRun where
  periodLabel : Text
  dueAt : Text
deriving DecidableEq, Repr

/-- The date that `isoDate` writes: no later than the last day of the month. -/
def clipped (year month day : ℕ) : YearMonthDay := ⟨year, month, min day (monthLength year month)⟩

def isoDate (year month day : ℕ) : Text := (clipped year month day).iso

/-- A run, if its date lies between two others. -/
def inRange (fromIso toIso label dueAt : Text) : List PlannedRun :=
  if textLe fromIso dueAt && textLe dueAt toIso then [⟨label, dueAt⟩] else []

/-- The second month of a rule that is half-yearly. -/
def secondMonthOf (input : ScheduleInput) (month : Month) : ℕ :=
  match input.secondMonth with
  | some m => m
  | none => (month.val + 5) % 12 + 1

def sortRuns (runs : List PlannedRun) : List PlannedRun :=
  runs.insertionSort fun a b => textLe a.dueAt b.dueAt = true

/-- `scheduleRuns`; the window goes from `start` to `stop`. -/
def scheduleRuns (input : ScheduleInput) (start stop : Moment) : List PlannedRun :=
  if stop.before start then []
  else
    let keep := inRange start.date.iso stop.date.iso
    let years := List.range' start.date.year (stop.date.year + 1 - start.date.year)
    match input.frequency, input.dueRule with
    | .annual, some (.fixed month day) =>
      sortRuns (years.flatMap fun y => keep (decimal y) (isoDate y month day))
    | .triennial, some (.fixed month day) =>
      let anchor := input.anchorYear.getD start.date.year
      sortRuns (years.flatMap fun (y : ℕ) =>
        if ((y : ℤ) - anchor).tmod 3 ≠ 0 then [] else keep (decimal y) (isoDate y month day))
    | .semiannual, some (.fixed month day) =>
      let second := secondMonthOf input month
      sortRuns (years.flatMap fun y =>
        keep (decimal y ++ js "-H1") (isoDate y month day) ++
        keep (decimal y ++ js "-H2") (isoDate y second day))
    | .quarterly, some (.quarterly day) =>
      -- due in the month after the quarter: the fourth one in January of the next year
      sortRuns (((start.date.year - 1) :: years).flatMap fun y => [1, 2, 3, 4].flatMap fun q =>
        let dueMonth := q * 3 + 1
        let dueYear := if dueMonth > 12 then y + 1 else y
        keep (decimal y ++ js "-Q" ++ decimal q)
          (isoDate dueYear (if dueMonth > 12 then 1 else dueMonth) day))
    | .monthly, some (.monthly day) =>
      sortRuns (years.flatMap fun y => (List.range' 1 12).flatMap fun m =>
        keep (decimal y ++ ch '-' :: pad m) (isoDate y m day))
    -- per event, daily and weekly: no runs of their own
    | _, _ => []

/-! ## Periods -/

/-- What an obligation is to be met once for. -/
inductive Period
  | year (y : ℕ)
  | half (y : ℕ) (second : Bool)
  | quarter (y q : ℕ)
  | month (y m : ℕ)
deriving DecidableEq, Repr

namespace Period

def startYear : Period → ℕ
  | .year y => y
  | .half y _ => y
  | .quarter y _ => y
  | .month y _ => y

def label : Period → Text
  | .year y => decimal y
  | .half y second => decimal y ++ if second then js "-H2" else js "-H1"
  | .quarter y q => decimal y ++ js "-Q" ++ decimal q
  | .month y m => decimal y ++ ch '-' :: pad m

/-- Periods of one length. -/
def SameKind : Period → Period → Prop
  | .year _, .year _ => True
  | .half _ _, .half _ _ => True
  | .quarter _ _, .quarter _ _ => True
  | .month _ _, .month _ _ => True
  | _, _ => False

/-- Digits up to a dash are found again. -/
theorem decimal_dash {m n : ℕ} {s t : Text} (h : decimal m ++ ch '-' :: s = decimal n ++ ch '-' :: t) :
    m = n ∧ s = t := by
  have hnot : ∀ k, ch '-' ∉ decimal k := by
    intro k hk
    have := decimal_digits k _ hk
    revert this
    decide
  rcases List.append_eq_append_iff.mp h with ⟨a, h1, h2⟩ | ⟨a, h1, h2⟩
  · cases a with
    | nil =>
      rw [List.append_nil] at h1
      exact ⟨decimal_injective h1.symm, by simpa using h2⟩
    | cons u a =>
      rw [List.cons_append, List.cons.injEq] at h2
      exact absurd (h1 ▸ List.mem_append_right _ (h2.1 ▸ List.mem_cons_self)) (hnot n)
  · cases a with
    | nil =>
      rw [List.append_nil] at h1
      exact ⟨decimal_injective h1, by simpa using h2.symm⟩
    | cons u a =>
      rw [List.cons_append, List.cons.injEq] at h2
      exact absurd (h1 ▸ List.mem_append_right _ (h2.1 ▸ List.mem_cons_self)) (hnot m)

/-- Labels tell the periods of one length apart. -/
theorem label_injective {p r : Period} (hkind : SameKind p r) (h : p.label = r.label) : p = r := by
  cases p with
  | year y =>
    cases r with
    | year y' => rw [decimal_injective h]
    | half _ _ => cases hkind
    | quarter _ _ => cases hkind
    | month _ _ => cases hkind
  | half y b =>
    cases r with
    | half y' b' =>
      have hsplit : ∀ c : Bool, (if c then js "-H2" else js "-H1") =
          ch '-' :: (if c then js "H2" else js "H1") := by decide
      have hhalf : ∀ c c' : Bool, (if c then js "H2" else js "H1") =
          (if c' then js "H2" else js "H1") → c = c' := by decide
      simp only [label, hsplit] at h
      obtain ⟨rfl, hb⟩ := decimal_dash h
      rw [hhalf b b' hb]
    | year _ => cases hkind
    | quarter _ _ => cases hkind
    | month _ _ => cases hkind
  | quarter y q =>
    cases r with
    | quarter y' q' =>
      have hsplit : js "-Q" = ch '-' :: js "Q" := by decide
      simp only [label, hsplit, List.append_assoc, List.cons_append] at h
      obtain ⟨rfl, hq⟩ := decimal_dash h
      rw [decimal_injective (List.append_cancel_left hq)]
    | year _ => cases hkind
    | half _ _ => cases hkind
    | month _ _ => cases hkind
  | month y m =>
    cases r with
    | month y' m' =>
      obtain ⟨rfl, hm⟩ := decimal_dash h
      rw [pad_injective hm]
    | year _ => cases hkind
    | half _ _ => cases hkind
    | quarter _ _ => cases hkind

end Period

/-- The due date of a period, if it is one of the obligation. -/
def dueOf (input : ScheduleInput) : Period → Option YearMonthDay
  | .year y =>
    match input.frequency, input.dueRule with
    | .annual, some (.fixed month day) => some (clipped y month day)
    | .triennial, some (.fixed month day) => some (clipped y month day)
    | _, _ => none
  | .half y second =>
    match input.frequency, input.dueRule with
    | .semiannual, some (.fixed month day) =>
      some (clipped y (if second then secondMonthOf input month else month) day)
    | _, _ => none
  | .quarter y q =>
    match input.frequency, input.dueRule with
    | .quarterly, some (.quarterly day) =>
      if 1 ≤ q ∧ q ≤ 4 then
        some (clipped (if q * 3 + 1 > 12 then y + 1 else y) (if q * 3 + 1 > 12 then 1 else q * 3 + 1)
          day)
      else none
    | _, _ => none
  | .month y m =>
    match input.frequency, input.dueRule with
    | .monthly, some (.monthly day) => if 1 ≤ m ∧ m ≤ 12 then some (clipped y m day) else none
    | _, _ => none

/-- A triennial obligation has every third year from its anchor. -/
def InPhase (input : ScheduleInput) (anchor : ℕ) (p : Period) : Prop :=
  input.frequency = .triennial → p.startYear % 3 = anchor % 3

/-- The date lies in the window. -/
def Within (start stop : Moment) (d : YearMonthDay) : Prop :=
  stop.before start = false ∧ start.date.code ≤ d.code ∧ d.code ≤ stop.date.code

/-! ## The schedule by its periods -/

/-- The periods that the loops go through. -/
def candidates (input : ScheduleInput) (startYear : ℕ) (years : List ℕ) : List Period :=
  match input.frequency, input.dueRule with
  | .annual, some (.fixed ..) => years.map .year
  | .triennial, some (.fixed ..) =>
    (years.filter fun (y : ℕ) => ((y : ℤ) - (input.anchorYear.getD startYear : ℕ)).tmod 3 = 0).map .year
  | .semiannual, some (.fixed ..) => years.flatMap fun y => [.half y false, .half y true]
  | .quarterly, some (.quarterly _) =>
    ((startYear - 1) :: years).flatMap fun y => [1, 2, 3, 4].map (.quarter y)
  | .monthly, some (.monthly _) => years.flatMap fun y => (List.range' 1 12).map (.month y)
  | _, _ => []

def kept (input : ScheduleInput) (start stop : Moment) (p : Period) : List PlannedRun :=
  match dueOf input p with
  | some d => inRange start.date.iso stop.date.iso p.label d.iso
  | none => []

def yearsOf (start stop : Moment) : List ℕ :=
  List.range' start.date.year (stop.date.year + 1 - start.date.year)

theorem mem_yearsOf {start stop : Moment} {y : ℕ} :
    y ∈ yearsOf start stop ↔ start.date.year ≤ y ∧ y ≤ stop.date.year := by
  unfold yearsOf
  rw [List.mem_range'_1]
  omega

theorem flatMap_filter_ite {α β : Type} (l : List α) (c : α → Prop) [DecidablePred c]
    (f : α → List β) : (l.filter c).flatMap f = l.flatMap fun a => if ¬ c a then [] else f a := by
  induction l with
  | nil => rfl
  | cons a l ih =>
    by_cases ha : c a <;> simp [ha, ih]

/-- The schedule keeps of its periods those that fall due in the window. -/
theorem scheduleRuns_eq (input : ScheduleInput) (start stop : Moment)
    (h : stop.before start = false) : scheduleRuns input start stop =
      sortRuns ((candidates input start.date.year (yearsOf start stop)).flatMap
        (kept input start stop)) := by
  obtain ⟨frequency, rule, second, anchor⟩ := input
  have hif : ¬ stop.before start = true := by simp [h]
  unfold scheduleRuns candidates
  rw [if_neg hif]
  cases frequency with
  | annual =>
    rcases rule with _ | ⟨month, day⟩ | _ | _ | _ <;> try rfl
    simp only [List.flatMap_map]
    rfl
  | triennial =>
    rcases rule with _ | ⟨month, day⟩ | _ | _ | _ <;> try rfl
    simp only [List.flatMap_map, flatMap_filter_ite]
    rfl
  | semiannual =>
    rcases rule with _ | ⟨month, day⟩ | _ | _ | _ <;> try rfl
    simp only [List.flatMap_assoc, List.flatMap_cons, List.flatMap_nil, List.append_nil]
    rfl
  | quarterly =>
    rcases rule with _ | _ | _ | day | _ <;> try rfl
    simp only [List.flatMap_assoc, List.flatMap_map]
    rfl
  | monthly =>
    rcases rule with _ | _ | _ | _ | day <;> try rfl
    simp only [List.flatMap_assoc, List.flatMap_map]
    rfl
  | perEvent => rfl
  | daily => rfl
  | weekly => rfl

theorem clipped_isDay {y m : ℕ} (day : MonthDay) (hlo : 1 ≤ m) (hhi : m ≤ 12) :
    (clipped y m day).IsDay where
  month_lo := hlo
  month_hi := hhi
  day_lo := le_min day.2 (monthLength_pos y m)
  day_hi := Nat.min_le_right _ _

theorem secondMonthOf_range (input : ScheduleInput) (month : Month) :
    1 ≤ secondMonthOf input month ∧ secondMonthOf input month ≤ 12 := by
  unfold secondMonthOf
  split
  · rename_i m _
    exact m.2
  · omega

/-- A due date is a day of the calendar, in the year of its period or in January of the next. -/
theorem dueOf_date {input : ScheduleInput} {p : Period} {d : YearMonthDay}
    (h : dueOf input p = some d) : d.IsDay ∧
      (d.year = p.startYear ∨ input.frequency = .quarterly ∧ d.year = p.startYear + 1) := by
  obtain ⟨frequency, rule, second, anchor⟩ := input
  unfold dueOf at h
  cases p with
  | year y =>
    dsimp only at h
    split at h
    · rename_i month day
      cases h
      exact ⟨clipped_isDay day month.2.1 month.2.2, .inl rfl⟩
    · rename_i month day
      cases h
      exact ⟨clipped_isDay day month.2.1 month.2.2, .inl rfl⟩
    · cases h
  | half y b =>
    dsimp only at h
    split at h
    · rename_i month day
      cases h
      refine ⟨?_, .inl rfl⟩
      cases b with
      | false => exact clipped_isDay day month.2.1 month.2.2
      | true =>
        have := secondMonthOf_range ⟨.semiannual, some (.fixed month day), second, anchor⟩ month
        exact clipped_isDay day this.1 this.2
    · cases h
  | quarter y q =>
    dsimp only at h
    split at h
    · rename_i day
      split_ifs at h with hq hlate
      · cases h
        exact ⟨clipped_isDay day le_rfl (by omega), .inr ⟨rfl, rfl⟩⟩
      · cases h
        exact ⟨clipped_isDay day (by omega) (by omega), .inl rfl⟩
    · cases h
  | month y m =>
    dsimp only at h
    split at h
    · rename_i day
      split_ifs at h with hm
      cases h
      exact ⟨clipped_isDay day hm.1 hm.2, .inl rfl⟩
    · cases h

/-- Two periods of one obligation have one length. -/
theorem sameKind_of_dueOf {input : ScheduleInput} {p r : Period} {d e : YearMonthDay}
    (hp : dueOf input p = some d) (hr : dueOf input r = some e) : p.SameKind r := by
  obtain ⟨frequency, rule, second, anchor⟩ := input
  cases frequency <;> rcases rule with _ | _ | _ | _ | _ <;> cases p <;> cases r <;>
    trivial

/-- The phase, as the loop tests it. -/
theorem tmod_eq_zero_iff (y anchor : ℕ) :
    ((y : ℤ) - (anchor : ℕ)).tmod 3 = 0 ↔ y % 3 = anchor % 3 := by
  rw [← Int.dvd_iff_tmod_eq_zero]
  omega

/-- Where the loops have no periods, none falls due. -/
theorem mem_candidates_of_none {input : ScheduleInput} {startYear : ℕ} {years : List ℕ} {p : Period}
    {Q : Prop} (hnone : candidates input startYear years = []) (hdue : dueOf input p = none) :
    p ∈ candidates input startYear years ↔ (dueOf input p).isSome ∧ Q := by
  rw [hnone, hdue]
  simp

/-- The loops go through the periods of the obligation that are in phase and near the window. -/
theorem mem_candidates {input : ScheduleInput} {start stop : Moment} {p : Period} :
    p ∈ candidates input start.date.year (yearsOf start stop) ↔
      (dueOf input p).isSome ∧ InPhase input (input.anchorYear.getD start.date.year) p ∧
      ((start.date.year ≤ p.startYear ∧ p.startYear ≤ stop.date.year) ∨
        input.frequency = .quarterly ∧ p.startYear = start.date.year - 1) := by
  obtain ⟨frequency, rule, second, anchor⟩ := input
  -- only a rule of the kind of the frequency has periods, and these are of one length
  cases frequency <;> rcases rule with _ | _ | _ | _ | _ <;>
    try exact mem_candidates_of_none rfl (by cases p <;> rfl)
  all_goals cases p <;>
    simp [candidates, dueOf, InPhase, Period.startYear, mem_yearsOf, tmod_eq_zero_iff]
  case triennial.some.fixed.year => exact and_comm
  case semiannual.some.fixed.half y second =>
    constructor
    · rintro ⟨a, ha, ⟨rfl, -⟩ | ⟨rfl, -⟩⟩ <;> exact ha
    · intro ha
      refine ⟨y, ha, ?_⟩
      cases second <;> simp
  case quarterly.some.quarterly.quarter y q =>
    constructor
    · rintro (⟨h, hq⟩ | ⟨h, hq⟩ | ⟨h, hq⟩ | ⟨h, hq⟩ | ⟨a, ha, ⟨rfl, hq⟩ | ⟨rfl, hq⟩ | ⟨rfl, hq⟩ | ⟨rfl, hq⟩⟩) <;>
        omega
    · rintro ⟨hq, ha | ha⟩
      · right; right; right; right
        exact ⟨y, ha, by omega⟩
      · omega
  case monthly.some.monthly.month y m => omega

/-- A date in a window lies in its years. -/
theorem Within.years {start stop : Moment} {d : YearMonthDay} (h : Within start stop d)
    (hd : d.IsDay) : start.date.year ≤ d.year ∧ d.year ≤ stop.date.year := by
  obtain ⟨-, h1, h2⟩ := h
  have hm := hd.month_hi
  have hday := hd.day_le
  have hsm := stop.isDay.month_hi
  have hsd := stop.isDay.day_le
  unfold YearMonthDay.code at h1 h2
  omega

/-- **A schedule has a run for each period** of the obligation that is in phase and falls due in
the window, on its due date, and no other. -/
theorem mem_scheduleRuns {input : ScheduleInput} {start stop : Moment} {run : PlannedRun} :
    run ∈ scheduleRuns input start stop ↔ ∃ p d, dueOf input p = some d ∧
      InPhase input (input.anchorYear.getD start.date.year) p ∧ Within start stop d ∧
      run = ⟨p.label, d.iso⟩ := by
  by_cases hbefore : stop.before start = true
  · have hnil : scheduleRuns input start stop = [] := by
      unfold scheduleRuns
      rw [if_pos hbefore]
    rw [hnil]
    simp [Within, hbefore]
  · rw [Bool.not_eq_true] at hbefore
    have hrange : ∀ {p d}, dueOf input p = some d → 1000 ≤ d.year → d.year ≤ 9999 →
        (run ∈ kept input start stop p ↔ Within start stop d ∧ run = ⟨p.label, d.iso⟩) := by
      intro p d hd hlo hhi
      have hm := (dueOf_date hd).1.month_hi
      have hday := (dueOf_date hd).1.day_le
      have hfits : d.Fits := ⟨hlo, hhi, by omega, by omega⟩
      unfold kept Within
      rw [hd]
      dsimp only
      unfold inRange
      rw [← YearMonthDay.textLe_iso start.fits hfits, ← YearMonthDay.textLe_iso hfits stop.fits]
      split_ifs with h
      · rw [List.mem_singleton]
        rw [Bool.and_eq_true] at h
        simp [hbefore, h]
      · rw [Bool.and_eq_true] at h
        simp [hbefore, h]
    rw [scheduleRuns_eq input start stop hbefore, sortRuns, (List.perm_insertionSort _ _).mem_iff,
      List.mem_flatMap]
    have hlo := start.year_lo
    have hlo' := start.year_hi
    have hhi := stop.year_hi
    constructor
    · rintro ⟨p, hp, hrun⟩
      obtain ⟨hsome, hphase, hyears⟩ := mem_candidates.1 hp
      obtain ⟨d, hd⟩ := Option.isSome_iff_exists.mp hsome
      have hdate := (dueOf_date hd).2
      obtain ⟨hwithin, rfl⟩ := (hrange hd (by omega) (by omega)).mp hrun
      exact ⟨p, d, hd, hphase, hwithin, rfl⟩
    · rintro ⟨p, d, hd, hphase, hwithin, hrun⟩
      obtain ⟨hday, hdate⟩ := dueOf_date hd
      have hyears := hwithin.years hday
      have hnear : (start.date.year ≤ p.startYear ∧ p.startYear ≤ stop.date.year) ∨
          input.frequency = .quarterly ∧ p.startYear = start.date.year - 1 := by
        rcases hdate with hdate | ⟨hq, hdate⟩
        · left
          omega
        · by_cases hstart : start.date.year ≤ p.startYear
          · left
            omega
          · right
            exact ⟨hq, by omega⟩
      refine ⟨p, mem_candidates.2 ⟨by rw [hd]; rfl, hphase, hnear⟩, ?_⟩
      exact (hrange hd (by omega) (by omega)).mpr ⟨hwithin, hrun⟩

/-! ## Each period once -/

theorem candidates_nodup (input : ScheduleInput) (start stop : Moment) :
    (candidates input start.date.year (yearsOf start stop)).Nodup := by
  have hyears : (yearsOf start stop).Nodup := List.nodup_range'
  have hflat : ∀ (years : List ℕ) (f : ℕ → List Period), years.Nodup → (∀ y, (f y).Nodup) →
      (∀ y, ∀ p ∈ f y, p.startYear = y) → (years.flatMap f).Nodup := by
    intro years f hnodup hf hstart
    refine List.nodup_flatMap.mpr ⟨fun y _ => hf y, hnodup.imp fun {y z} hne => ?_⟩
    intro p hp hq
    exact hne ((hstart y p hp).symm.trans (hstart z p hq))
  unfold candidates
  split
  · exact hyears.map fun _ _ h => Period.year.inj h
  · exact (hyears.filter _).map fun _ _ h => Period.year.inj h
  · apply hflat _ _ hyears
    · intro y
      simp
    · intro y p hp
      simp only [List.mem_cons, List.not_mem_nil, or_false] at hp
      rcases hp with rfl | rfl <;> rfl
  · apply hflat
    · rw [List.nodup_cons]
      refine ⟨?_, hyears⟩
      have := start.year_lo
      rw [mem_yearsOf]
      omega
    · intro y
      simp
    · intro y p hp
      obtain ⟨q, -, rfl⟩ := List.mem_map.mp hp
      rfl
  · apply hflat _ _ hyears
    · intro y
      exact List.Nodup.map (fun _ _ h => (Period.month.inj h).2) List.nodup_range'
    · intro y p hp
      obtain ⟨m, -, rfl⟩ := List.mem_map.mp hp
      rfl
  · exact List.nodup_nil

/-- What a period adds carries its label. -/
theorem mem_kept {input : ScheduleInput} {start stop : Moment} {p : Period} {run : PlannedRun}
    (h : run ∈ kept input start stop p) : ∃ d, dueOf input p = some d ∧ run = ⟨p.label, d.iso⟩ := by
  unfold kept inRange at h
  split at h
  · rename_i d hd
    split_ifs at h with hc
    · exact ⟨d, hd, List.mem_singleton.mp h⟩
    · cases h
  · cases h

/-- No label stands twice in a schedule. -/
theorem labels_nodup (input : ScheduleInput) (start stop : Moment) :
    (scheduleRuns input start stop).Pairwise fun a b => a.periodLabel ≠ b.periodLabel := by
  by_cases hbefore : stop.before start = true
  · unfold scheduleRuns
    rw [if_pos hbefore]
    exact .nil
  · rw [Bool.not_eq_true] at hbefore
    rw [scheduleRuns_eq input start stop hbefore, sortRuns]
    refine ((List.perm_insertionSort _ _).pairwise_iff fun h => Ne.symm h).mpr ?_
    rw [List.pairwise_flatMap]
    refine ⟨?_, (candidates_nodup input start stop).imp ?_⟩
    · intro p _
      unfold kept inRange
      split
      · split_ifs <;> simp
      · simp
    · intro p r hne a ha b hb heq
      obtain ⟨d, hd, rfl⟩ := mem_kept ha
      obtain ⟨e, he, rfl⟩ := mem_kept hb
      exact hne (Period.label_injective (sameKind_of_dueOf hd he) heq)

end Klick.Obligations
