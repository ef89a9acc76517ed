-- The planner of obligations (`planObligationRuns` of
-- `lib/compliance/obligations-service.ts`): run after run over windows that overlap or
-- adjoin, with the labels as its only memory.
import Klick.Obligations

open Js

namespace Klick.Obligations

/-! ## The planner -/

/-- An active obligation, with the second month that the catalogue gives for its code. -/
structure Obligation where
  id : Text
  frequency : Frequency
  dueRule : Option DueRule
  secondMonth : Option Month

/-- The active obligations of an organisation. -/
structure Register where
  obligations : List Obligation
  ids_nodup : (obligations.map (·.id)).Nodup

structure ObligationRun where
  obligationId : Text
  run : PlannedRun
deriving DecidableEq

def ObligationRun.key (r : ObligationRun) : Text × Text := (r.obligationId, r.run.periodLabel)

def Obligation.input (o : Obligation) (anchorYear : ℕ) : ScheduleInput where
  frequency := o.frequency
  dueRule := o.dueRule
  secondMonth := o.secondMonth
  anchorYear := some anchorYear

/-- The runs of a schedule that are not there yet. -/
def freshRuns (present : List (Text × Text)) (start stop : Moment) (o : Obligation) :
    List ObligationRun :=
  ((scheduleRuns (o.input start.date.year) start stop).filter
    fun p => (o.id, p.periodLabel) ∉ present).map fun p => ⟨o.id, p⟩

/-- `planObligationRuns`: runs that are there stay as they are. -/
def planObligationRuns (os : Register) (rows : List ObligationRun) (start stop : Moment) :
    List ObligationRun :=
  rows ++ os.obligations.flatMap (freshRuns (rows.map (·.key)) start stop)

structure Window where
  start : Moment
  stop : Moment

def Window.Has (w : Window) (d : YearMonthDay) : Prop := Within w.start w.stop d

/-- One run of the planner after the other, from an empty table. -/
def planAll (os : Register) (ws : List Window) : List ObligationRun :=
  ws.foldl (fun rows w => planObligationRuns os rows w.start w.stop) []

theorem planAll_append (os : Register) (ws : List Window) (w : Window) :
    planAll os (ws ++ [w]) = planObligationRuns os (planAll os ws) w.start w.stop := by
  unfold planAll
  rw [List.foldl_append]
  rfl

/-! ## What is planned -/

/-- The due date does not depend on the anchor. -/
def Obligation.due (o : Obligation) (p : Period) : Option YearMonthDay := dueOf (o.input 0) p

theorem Obligation.dueOf_input (o : Obligation) (anchorYear : ℕ) (p : Period) :
    dueOf (o.input anchorYear) p = o.due p := by
  cases p <;> rfl

/-- A run of an obligation, for a period that is in phase with a window and due in it. -/
def Obligation.Schedules (o : Obligation) (w : Window) (r : ObligationRun) : Prop :=
  ∃ p d, o.due p = some d ∧ (o.frequency = .triennial → p.startYear % 3 = w.start.date.year % 3) ∧
    w.Has d ∧ r = ⟨o.id, p.label, d.iso⟩

theorem mem_schedule {o : Obligation} {w : Window} {run : PlannedRun} :
    run ∈ scheduleRuns (o.input w.start.date.year) w.start w.stop ↔ o.Schedules w ⟨o.id, run⟩ := by
  rw [mem_scheduleRuns]
  unfold Obligation.Schedules InPhase
  constructor
  · rintro ⟨p, d, hd, hphase, hwithin, rfl⟩
    exact ⟨p, d, by rwa [o.dueOf_input] at hd, hphase, hwithin, rfl⟩
  · rintro ⟨p, d, hd, hphase, hwithin, heq⟩
    exact ⟨p, d, by rwa [o.dueOf_input], hphase, hwithin, (ObligationRun.mk.inj heq).2⟩

theorem mem_freshRuns {present : List (Text × Text)} {w : Window} {o : Obligation}
    {r : ObligationRun} :
    r ∈ freshRuns present w.start w.stop o ↔ o.Schedules w r ∧ r.key ∉ present := by
  unfold freshRuns
  rw [List.mem_map]
  constructor
  · rintro ⟨run, hrun, rfl⟩
    obtain ⟨hmem, hfresh⟩ := List.mem_filter.mp hrun
    exact ⟨mem_schedule.1 hmem, of_decide_eq_true hfresh⟩
  · rintro ⟨hsched, hfresh⟩
    obtain ⟨p, d, -, -, -, rfl⟩ := id hsched
    exact ⟨_, List.mem_filter.mpr ⟨mem_schedule.2 hsched, decide_eq_true hfresh⟩, rfl⟩

theorem Register.eq_of_id (os : Register) {o o' : Obligation} (ho : o ∈ os.obligations)
    (ho' : o' ∈ os.obligations) (h : o.id = o'.id) : o = o' :=
  List.inj_on_of_nodup_map os.ids_nodup ho ho' h

/-- The label of a run tells the run. -/
theorem Obligation.Schedules.eq_of_key {o : Obligation} {v w : Window} {r s : ObligationRun}
    (hr : o.Schedules v r) (hs : o.Schedules w s) (h : r.key = s.key) : r = s := by
  obtain ⟨p, d, hd, -, -, rfl⟩ := hr
  obtain ⟨q, e, he, -, -, rfl⟩ := hs
  obtain rfl := Period.label_injective (sameKind_of_dueOf hd he) (Prod.ext_iff.mp h).2
  rw [hd] at he
  cases he
  rfl

/-- **What the windows planned**: the runs of the obligations, each in phase with some window
in which it is due. -/
theorem mem_planAll (os : Register) (ws : List Window) (r : ObligationRun) :
    r ∈ planAll os ws ↔ ∃ o ∈ os.obligations, ∃ w ∈ ws, o.Schedules w r := by
  induction ws using List.reverseRecOn generalizing r with
  | nil => simp [planAll]
  | append_singleton ws w ih =>
    rw [planAll_append, planObligationRuns, List.mem_append, List.mem_flatMap]
    constructor
    · rintro (hr | ⟨o, ho, hr⟩)
      · obtain ⟨o, ho, v, hv, hsched⟩ := (ih r).mp hr
        exact ⟨o, ho, v, List.mem_append_left _ hv, hsched⟩
      · exact ⟨o, ho, w, by simp, (mem_freshRuns.1 hr).1⟩
    · rintro ⟨o, ho, v, hv, hsched⟩
      rcases List.mem_append.mp hv with hv | hv
      · exact .inl ((ih r).mpr ⟨o, ho, v, hv, hsched⟩)
      · rw [List.mem_singleton] at hv
        subst hv
        by_cases hkey : r.key ∈ (planAll os ws).map (·.key)
        · left
          obtain ⟨s, hs, heq⟩ := List.mem_map.mp hkey
          obtain ⟨o', ho', u, -, hsched'⟩ := (ih s).mp hs
          have hid : o'.id = o.id := by
            obtain ⟨_, _, -, -, -, rfl⟩ := hsched
            obtain ⟨_, _, -, -, -, rfl⟩ := hsched'
            exact (Prod.ext_iff.mp heq).1
          obtain rfl := os.eq_of_id ho' ho hid
          rwa [hsched.eq_of_key hsched' heq.symm]
        · exact .inr ⟨o, ho, mem_freshRuns.2 ⟨hsched, hkey⟩⟩

/-- No period of an obligation is planned twice. -/
theorem planAll_nodup (os : Register) (ws : List Window) :
    (planAll os ws).Pairwise fun r s => r.key ≠ s.key := by
  induction ws using List.reverseRecOn with
  | nil => exact .nil
  | append_singleton ws w ih =>
    rw [planAll_append, planObligationRuns, List.pairwise_append]
    refine ⟨ih, ?_, ?_⟩
    · rw [List.pairwise_flatMap]
      constructor
      · intro o _
        unfold freshRuns
        rw [List.pairwise_map]
        refine ((labels_nodup _ _ _).filter _).imp fun hne heq => hne ?_
        exact (Prod.ext_iff.mp heq).2
      · have hids : os.obligations.Pairwise fun o o' => o.id ≠ o'.id :=
          List.pairwise_map.mp os.ids_nodup
        refine hids.imp fun {o o'} hne r hr s hs heq => hne ?_
        obtain ⟨⟨_, _, -, -, -, rfl⟩, -⟩ := mem_freshRuns.1 hr
        obtain ⟨⟨_, _, -, -, -, rfl⟩, -⟩ := mem_freshRuns.1 hs
        exact (Prod.ext_iff.mp heq).1
    · intro r hr s hs heq
      obtain ⟨o, -, hs⟩ := List.mem_flatMap.mp hs
      exact (mem_freshRuns.1 hs).2 (List.mem_map.mpr ⟨r, hr, heq⟩)

/-! ## Windows that overlap or adjoin -/

/-- The windows, taken together, are one window. -/
def Joins (ws : List Window) (u : Window) : Prop :=
  ∀ d : YearMonthDay, d.IsDay → (u.Has d ↔ ∃ w ∈ ws, w.Has d)

/-- The plan does not depend on when the planner runs: it is the one of a single run over all the
windows, with each period of an obligation once, on its due date, and none outside. -/
structure Steady (os : Register) (ws : List Window) (u : Window) : Prop where
  same : ∀ r, r ∈ planAll os ws ↔ r ∈ planObligationRuns os [] u.start u.stop
  periods : ∀ r, r ∈ planAll os ws ↔ ∃ o ∈ os.obligations, o.Schedules u r
  once : (planAll os ws).Pairwise fun r s => r.key ≠ s.key

/-- A due date of a triennial obligation meets a window that starts in a year of its cycle exactly
when all windows together do. -/
def Obligation.InStep (o : Obligation) (ws : List Window) (u : Window) : Prop :=
  o.frequency = .triennial → ∀ p d, o.due p = some d → u.Has d →
    ((∃ w ∈ ws, w.Has d ∧ p.startYear % 3 = w.start.date.year % 3) ↔
      p.startYear % 3 = u.start.date.year % 3)

theorem mem_single (os : Register) (u : Window) (r : ObligationRun) :
    r ∈ planObligationRuns os [] u.start u.stop ↔ ∃ o ∈ os.obligations, o.Schedules u r := by
  have := mem_planAll os [u] r
  simpa [planAll] using this

theorem schedules_iff_of_inStep {o : Obligation} {ws : List Window} {u : Window}
    (hjoin : Joins ws u) (h : o.InStep ws u) (r : ObligationRun) :
    (∃ w ∈ ws, o.Schedules w r) ↔ o.Schedules u r := by
  constructor
  · rintro ⟨w, hw, p, d, hd, hphase, hwithin, rfl⟩
    have hu := (hjoin d (dueOf_date hd).1).mpr ⟨w, hw, hwithin⟩
    exact ⟨p, d, hd, fun ht => (h ht p d hd hu).mp ⟨w, hw, hwithin, hphase ht⟩, hu, rfl⟩
  · rintro ⟨p, d, hd, hphase, hu, rfl⟩
    by_cases ht : o.frequency = .triennial
    · obtain ⟨w, hw, hwithin, hcycle⟩ := (h ht p d hd hu).mpr (hphase ht)
      exact ⟨w, hw, p, d, hd, fun _ => hcycle, hwithin, rfl⟩
    · obtain ⟨w, hw, hwithin⟩ := (hjoin d (dueOf_date hd).1).mp hu
      exact ⟨w, hw, p, d, hd, fun ht' => absurd ht' ht, hwithin, rfl⟩

/-- A run of an obligation is in phase with the window that schedules it. -/
theorem Register.phase_of_schedules (os : Register) {o : Obligation} (ho : o ∈ os.obligations)
    {w : Window} {p : Period} {d : YearMonthDay} (hd : o.due p = some d)
    (h : ∃ o' ∈ os.obligations, o'.Schedules w ⟨o.id, p.label, d.iso⟩) :
    w.Has d ∧ (o.frequency = .triennial → p.startYear % 3 = w.start.date.year % 3) := by
  obtain ⟨o', ho', q, e, he, hphase, hwithin, heq⟩ := h
  obtain ⟨hid, hrun⟩ := ObligationRun.mk.inj heq
  obtain rfl := os.eq_of_id ho ho' hid
  obtain rfl := Period.label_injective (sameKind_of_dueOf hd he) (PlannedRun.mk.inj hrun).1
  rw [hd] at he
  cases he
  exact ⟨hwithin, hphase⟩

/-- **The calendar does not depend on when the planner runs** exactly if every triennial
obligation is in step: all others, with any due rule, are planned as by a single run. -/
theorem steady_iff (os : Register) (ws : List Window) (u : Window) (hjoin : Joins ws u) :
    Steady os ws u ↔ ∀ o ∈ os.obligations, o.InStep ws u := by
  constructor
  · intro h o ho ht p d hd hu
    constructor
    · rintro ⟨w, hw, hwithin, hcycle⟩
      have hplanned : (⟨o.id, p.label, d.iso⟩ : ObligationRun) ∈ planAll os ws :=
        (mem_planAll os ws _).mpr ⟨o, ho, w, hw, p, d, hd, fun _ => hcycle, hwithin, rfl⟩
      exact (os.phase_of_schedules ho hd ((h.periods _).mp hplanned)).2 ht
    · intro hcycle
      have hplanned : (⟨o.id, p.label, d.iso⟩ : ObligationRun) ∈ planAll os ws :=
        (h.periods _).mpr ⟨o, ho, p, d, hd, fun _ => hcycle, hu, rfl⟩
      obtain ⟨o', ho', w, hw, hsched⟩ := (mem_planAll os ws _).mp hplanned
      obtain ⟨hwithin, hphase⟩ := os.phase_of_schedules ho hd ⟨o', ho', hsched⟩
      exact ⟨w, hw, hwithin, hphase ht⟩
  · intro h
    have hperiods : ∀ r, r ∈ planAll os ws ↔ ∃ o ∈ os.obligations, o.Schedules u r := by
      intro r
      rw [mem_planAll]
      exact exists_congr fun o => and_congr_right fun ho =>
        schedules_iff_of_inStep hjoin (h o ho) r
    refine ⟨fun r => ?_, hperiods, planAll_nodup os ws⟩
    rw [hperiods, mem_single]

/-! ## The hourly tick -/

/-- Midnight of a day. -/
def midnight (year month day : ℕ) (hlo : 1000 < year) (hhi : year < 9999)
    (h : 1 ≤ month ∧ month ≤ 12 ∧ 1 ≤ day ∧ day ≤ monthLength year month) : Moment where
  date := ⟨year, month, day⟩
  ms := 0
  year_lo := hlo
  year_hi := hhi
  isDay := ⟨h.1, h.2.1, h.2.2.1, h.2.2.2⟩

/-- `OBL-TLPT` of the catalogue. -/
def tlpt : Obligation where
  id := js "b1"
  frequency := .triennial
  dueRule := some (.fixed ⟨12, by decide⟩ ⟨31, by decide⟩)
  secondMonth := none

def tlptOnly : Register := ⟨[tlpt], by simp⟩

/-- 366 days from the first of January 2026, from that of 2027, and both together. -/
def tick2026 : Window :=
  ⟨midnight 2026 1 1 (by decide) (by decide) (by decide),
    midnight 2027 1 2 (by decide) (by decide) (by decide)⟩

def tick2027 : Window :=
  ⟨midnight 2027 1 1 (by decide) (by decide) (by decide),
    midnight 2028 1 2 (by decide) (by decide) (by decide)⟩

def bothTicks : Window := ⟨tick2026.start, tick2027.stop⟩

theorem joins_ticks : Joins [tick2026, tick2027] bothTicks := by
  intro d _
  simp only [Window.Has, Within, List.mem_cons, List.not_mem_nil, or_false, exists_eq_or_imp,
    exists_eq_left]
  have h1 : bothTicks.stop.before bothTicks.start = false := by decide
  have h2 : tick2026.stop.before tick2026.start = false := by decide
  have h3 : tick2027.stop.before tick2027.start = false := by decide
  have c1 : tick2026.start.date.code = 20260101 := by decide
  have c2 : tick2026.stop.date.code = 20270102 := by decide
  have c3 : tick2027.start.date.code = 20270101 := by decide
  have c4 : tick2027.stop.date.code = 20280102 := by decide
  rw [h1, h2, h3, c1, c2, c3, c4]
  show _ ∧ tick2026.start.date.code ≤ _ ∧ _ ≤ tick2027.stop.date.code ↔ _
  rw [c1, c4]
  simp only [true_and]
  omega

/-- Two ticks, a year apart, plan the triennial obligation in two years one after the other; one
run over both windows plans it once. -/
theorem triennial_is_planned_each_year :
    Joins [tick2026, tick2027] bothTicks ∧ ¬ Steady tlptOnly [tick2026, tick2027] bothTicks ∧
    (planAll tlptOnly [tick2026, tick2027]).map (·.run) =
      [⟨js "2026", js "2026-12-31"⟩, ⟨js "2027", js "2027-12-31"⟩] ∧
    (planObligationRuns tlptOnly [] bothTicks.start bothTicks.stop).map (·.run) =
      [⟨js "2026", js "2026-12-31"⟩] := by
  have hall : (planAll tlptOnly [tick2026, tick2027]).map (·.run) =
      [⟨js "2026", js "2026-12-31"⟩, ⟨js "2027", js "2027-12-31"⟩] := by decide
  have hone : (planObligationRuns tlptOnly [] bothTicks.start bothTicks.stop).map (·.run) =
      [⟨js "2026", js "2026-12-31"⟩] := by decide
  refine ⟨joins_ticks, ?_, hall, hone⟩
  intro h
  have hmem : (⟨js "2027", js "2027-12-31"⟩ : PlannedRun) ∈
      (planAll tlptOnly [tick2026, tick2027]).map (·.run) := by
    rw [hall]
    simp
  obtain ⟨r, hr, heq⟩ := List.mem_map.mp hmem
  have hsame : r.run ∈ (planObligationRuns tlptOnly [] bothTicks.start bothTicks.stop).map (·.run) :=
    List.mem_map_of_mem ((h.same r).mp hr)
  rw [hone, heq] at hsame
  revert hsame
  decide

/-- A single tick. -/
theorem steady_of_one_tick : Steady tlptOnly [tick2026] tick2026 ↔
    ∀ o ∈ tlptOnly.obligations, o.InStep [tick2026] tick2026 :=
  steady_iff tlptOnly [tick2026] tick2026 fun d _ => by simp

end Klick.Obligations
