-- The reporting deadlines of an incident under its regime: hours from awareness and
-- from the reports made, and the final report a month after its base.
import Klick.Months

namespace Klick.Incident

open Js

/-! ## Regimes -/

inductive IncidentRegime where
  | dora
  | nis2
  | craVuln
  | craIncident
  | dsgvo
  | gwgSar
deriving DecidableEq, Repr

structure DeadlineInput where
  awareAt : ℤ
  classifiedAt : Option ℤ
  initialReportedAt : Option ℤ
  intermediateReportedAt : Option ℤ
  mitigationAvailableAt : Option ℤ
deriving DecidableEq, Repr

structure Labels where
  initial : Text
  intermediate : Option Text
  final : Option Text
deriving DecidableEq, Repr

structure Deadlines where
  regime : IncidentRegime
  labels : Labels
  earlyWarningAt : Option ℤ
  initialDueAt : ℤ
  intermediateDueAt : Option ℤ
  finalDueAt : Option ℤ
  /-- Whether later deadlines rest on reports that are not made yet. -/
  projected : Bool
deriving DecidableEq, Repr

/-- `addMonth`, in a time zone that is ahead of UTC by an offset all year. -/
def addMonth (offset t : ℤ) : ℤ := nextMonth offset t

/-- Under DORA the first report is due four hours after the classification, and a day
after awareness at the latest. -/
def doraInitialDueAt (input : DeadlineInput) : ℤ :=
  let byAwareness := input.awareAt + 24 * msPerHour
  match input.classifiedAt.map (· + 4 * msPerHour) with
  | some byClassification =>
    if byClassification < byAwareness then byClassification else byAwareness
  | none => byAwareness

def computeIncidentDeadlines (offset : ℤ) (regime : IncidentRegime) (input : DeadlineInput) :
    Deadlines :=
  let aware := input.awareAt
  match regime with
  | .dora =>
    let initialDueAt := doraInitialDueAt input
    let initialBase := input.initialReportedAt.getD initialDueAt
    let intermediateDueAt := initialBase + 72 * msPerHour
    let intermediateBase := input.intermediateReportedAt.getD intermediateDueAt
    { regime
      labels := ⟨js "Erstmeldung", some (js "Zwischenbericht"), some (js "Abschlussbericht")⟩
      earlyWarningAt := none
      initialDueAt
      intermediateDueAt := some intermediateDueAt
      finalDueAt := some (addMonth offset intermediateBase)
      projected := input.initialReportedAt.isNone || input.intermediateReportedAt.isNone }
  | .nis2 =>
    { regime
      labels := ⟨js "Frühwarnung", some (js "Meldung"), some (js "Abschlussbericht")⟩
      earlyWarningAt := some (aware + 24 * msPerHour)
      initialDueAt := aware + 24 * msPerHour
      intermediateDueAt := some (aware + 72 * msPerHour)
      finalDueAt := some (addMonth offset aware)
      projected := false }
  | .craVuln =>
    { regime
      labels := ⟨js "Frühwarnung (CSIRT/ENISA)", some (js "Schwachstellenmeldung"),
        some (js "Abschlussbericht (14 Tage nach Abhilfe)")⟩
      earlyWarningAt := some (aware + 24 * msPerHour)
      initialDueAt := aware + 24 * msPerHour
      intermediateDueAt := some (aware + 72 * msPerHour)
      finalDueAt := input.mitigationAvailableAt.map (· + 14 * (24 * msPerHour))
      projected := false }
  | .craIncident =>
    let intermediateDueAt := aware + 72 * msPerHour
    { regime
      labels := ⟨js "Frühwarnung (CSIRT/ENISA)", some (js "Vorfallmeldung"),
        some (js "Abschlussbericht")⟩
      earlyWarningAt := some (aware + 24 * msPerHour)
      initialDueAt := aware + 24 * msPerHour
      intermediateDueAt := some intermediateDueAt
      finalDueAt := some (addMonth offset (input.intermediateReportedAt.getD intermediateDueAt))
      projected := input.intermediateReportedAt.isNone }
  | .dsgvo =>
    { regime
      labels := ⟨js "Meldung an die Aufsichtsbehörde", none, none⟩
      earlyWarningAt := none
      initialDueAt := aware + 72 * msPerHour
      intermediateDueAt := none
      finalDueAt := none
      projected := false }
  | .gwgSar =>
    { regime
      labels := ⟨js "Verdachtsmeldung an die FIU (unverzüglich)", none, none⟩
      earlyWarningAt := none
      initialDueAt := aware + 24 * msPerHour
      intermediateDueAt := none
      finalDueAt := none
      projected := false }

/-! ## The base of the final report -/

/-- The instant from which the month to the final report counts, where one does. -/
def finalBase (regime : IncidentRegime) (input : DeadlineInput) : Option ℤ :=
  match regime with
  | .dora =>
    some (input.intermediateReportedAt.getD
      (input.initialReportedAt.getD (doraInitialDueAt input) + 72 * msPerHour))
  | .nis2 => some input.awareAt
  | .craIncident =>
    some (input.intermediateReportedAt.getD (input.awareAt + 72 * msPerHour))
  | _ => none

/-- The same day of the following month, or that month's last day where it is shorter. -/
def sameDayNextMonth (offset t : ℤ) : ℤ :=
  let n := (t + offset) / msPerDay
  let next := monthOf n + 1
  (monthStart next + (min (dayOfMonth n) (monthDays next) - 1)) * msPerDay +
    (t + offset) % msPerDay - offset

/-- `setMonth` keeps to the following month exactly where that month has the day. -/
theorem addMonth_eq_sameDay_iff (offset t : ℤ) :
    addMonth offset t = sameDayNextMonth offset t ↔
      dayOfMonth ((t + offset) / msPerDay) ≤ monthDays (monthAt offset t + 1) := by
  unfold addMonth nextMonth sameDayNextMonth monthAt msPerDay
  dsimp only
  omega

/-- The final report is due a month after its base. -/
theorem finalDueAt_of_base {regime : IncidentRegime} {input : DeadlineInput} {base : ℤ}
    (offset : ℤ) (h : finalBase regime input = some base) :
    (computeIncidentDeadlines offset regime input).finalDueAt = some (addMonth offset base) := by
  cases regime with
  | dora => cases h; rfl
  | nis2 => cases h; rfl
  | craIncident => cases h; rfl
  | craVuln => cases h
  | dsgvo => cases h
  | gwgSar => cases h

/-! ## Order -/

/-- The same times are present, and each is at or after that of the first. -/
structure Later (x y : DeadlineInput) : Prop where
  awareAt : x.awareAt ≤ y.awareAt
  classifiedAt : Option.Rel (· ≤ ·) x.classifiedAt y.classifiedAt
  initialReportedAt : Option.Rel (· ≤ ·) x.initialReportedAt y.initialReportedAt
  intermediateReportedAt : Option.Rel (· ≤ ·) x.intermediateReportedAt y.intermediateReportedAt
  mitigationAvailableAt : Option.Rel (· ≤ ·) x.mitigationAvailableAt y.mitigationAvailableAt

/-- No deadline is earlier than the same deadline of the first. -/
structure NoEarlier (d e : Deadlines) : Prop where
  earlyWarningAt : Option.Rel (· ≤ ·) d.earlyWarningAt e.earlyWarningAt
  initialDueAt : d.initialDueAt ≤ e.initialDueAt
  intermediateDueAt : Option.Rel (· ≤ ·) d.intermediateDueAt e.intermediateDueAt
  finalDueAt : Option.Rel (· ≤ ·) d.finalDueAt e.finalDueAt

/-- No time is before awareness. -/
structure NotBefore (x : DeadlineInput) : Prop where
  classifiedAt : ∀ t ∈ x.classifiedAt, x.awareAt ≤ t
  initialReportedAt : ∀ t ∈ x.initialReportedAt, x.awareAt ≤ t
  intermediateReportedAt : ∀ t ∈ x.intermediateReportedAt, x.awareAt ≤ t
  mitigationAvailableAt : ∀ t ∈ x.mitigationAvailableAt, x.awareAt ≤ t

/-- Initial, intermediate and final in this order, where they exist. -/
structure InOrder (d : Deadlines) : Prop where
  initial_intermediate : ∀ m ∈ d.intermediateDueAt, d.initialDueAt ≤ m
  intermediate_final : ∀ m ∈ d.intermediateDueAt, ∀ f ∈ d.finalDueAt, m ≤ f
  initial_final : ∀ f ∈ d.finalDueAt, d.initialDueAt ≤ f

/-- Two bases in neighbouring months, closer to each other than the days by which the
second month is shorter: the end of a month and the start of the next. -/
def Overtaken (offset s t : ℤ) : Prop :=
  monthAt offset t = monthAt offset s + 1 ∧
    t - s < (monthDays (monthAt offset s) - monthDays (monthAt offset t)) * msPerDay

theorem relOption_getD {a b : Option ℤ} {s t : ℤ} (h : Option.Rel (· ≤ ·) a b) (hst : s ≤ t) :
    a.getD s ≤ b.getD t := by
  cases h with
  | none => exact hst
  | some h => exact h

theorem doraInitialDueAt_eq (x : DeadlineInput) :
    doraInitialDueAt x = (x.classifiedAt.map fun t =>
      min (t + 4 * msPerHour) (x.awareAt + 24 * msPerHour)).getD
        (x.awareAt + 24 * msPerHour) := by
  unfold doraInitialDueAt
  cases x.classifiedAt with
  | none => rfl
  | some t =>
    simp only [Option.map_some, Option.getD_some]
    split_ifs <;> omega

/-- A later base has a later month end, save from one month's end to the next one's start. -/
theorem addMonth_le_iff {offset s t : ℤ} (h : s ≤ t) :
    addMonth offset s ≤ addMonth offset t ↔ ¬ Overtaken offset s t := by
  have hs := monthDays_bounds (monthAt offset s)
  have ht := monthDays_bounds (monthAt offset t)
  have hmono : monthAt offset s ≤ monthAt offset t :=
    monthOf_mono (Int.ediv_le_ediv (by unfold msPerDay; norm_num) (by omega))
  unfold addMonth Overtaken
  rw [nextMonth_eq, nextMonth_eq]
  constructor
  · rintro hle ⟨-, hnear⟩
    rw [sub_mul] at hnear
    omega
  · intro hnot
    by_contra hlt
    apply hnot
    have hnear : t - s < (monthDays (monthAt offset s) - monthDays (monthAt offset t)) * msPerDay := by
      rw [sub_mul]
      omega
    refine ⟨?_, hnear⟩
    have hdays : (t + offset) / msPerDay < (s + offset) / msPerDay + 28 := by
      unfold msPerDay at hnear ⊢
      omega
    have hnext : monthAt offset t ≤ monthAt offset s + 1 := monthOf_near hdays
    have hne : monthAt offset t ≠ monthAt offset s := by
      intro heq
      rw [heq, sub_self, zero_mul] at hnear
      omega
    omega

theorem doraInitialDueAt_le {x y : DeadlineInput} (h : Later x y) :
    doraInitialDueAt x ≤ doraInitialDueAt y := by
  have haware := h.awareAt
  have hclass := h.classifiedAt
  rw [doraInitialDueAt_eq, doraInitialDueAt_eq]
  generalize x.classifiedAt = s at hclass
  generalize y.classifiedAt = t at hclass
  cases hclass with
  | none => simpa using haware
  | some hst =>
    simp only [Option.map_some, Option.getD_some]
    exact min_le_min (by omega) (by omega)

theorem doraInitialDueAt_bounds (x : DeadlineInput) :
    doraInitialDueAt x ≤ x.awareAt + 24 * msPerHour := by
  rw [doraInitialDueAt_eq]
  cases x.classifiedAt with
  | none => exact le_rfl
  | some t => exact min_le_right _ _

/-- A later input has its final report counted from a later base. -/
theorem finalBase_rel {x y : DeadlineInput} (regime : IncidentRegime) (h : Later x y) :
    Option.Rel (· ≤ ·) (finalBase regime x) (finalBase regime y) := by
  have haware := h.awareAt
  cases regime with
  | dora =>
    have hfirst := relOption_getD h.initialReportedAt (doraInitialDueAt_le h)
    exact .some (relOption_getD h.intermediateReportedAt (by omega))
  | nis2 => exact .some haware
  | craIncident => exact .some (relOption_getD h.intermediateReportedAt (by omega))
  | craVuln => exact .none
  | dsgvo => exact .none
  | gwgSar => exact .none

/-- All deadlines but the final report's are no earlier for a later input. -/
theorem noEarlier_iff_final {x y : DeadlineInput} (offset : ℤ) (regime : IncidentRegime)
    (h : Later x y) :
    NoEarlier (computeIncidentDeadlines offset regime x)
        (computeIncidentDeadlines offset regime y) ↔
      Option.Rel (· ≤ ·) (computeIncidentDeadlines offset regime x).finalDueAt
        (computeIncidentDeadlines offset regime y).finalDueAt := by
  have haware := h.awareAt
  have hday : x.awareAt + 24 * msPerHour ≤ y.awareAt + 24 * msPerHour := by omega
  have hthree : x.awareAt + 72 * msPerHour ≤ y.awareAt + 72 * msPerHour := by omega
  refine ⟨fun hno => hno.finalDueAt, fun hfinal => ?_⟩
  cases regime with
  | dora =>
    have hfirst := relOption_getD h.initialReportedAt (doraInitialDueAt_le h)
    exact ⟨.none, doraInitialDueAt_le h, .some (by omega), hfinal⟩
  | nis2 => exact ⟨.some hday, hday, .some hthree, hfinal⟩
  | craVuln => exact ⟨.some hday, hday, .some hthree, hfinal⟩
  | craIncident => exact ⟨.some hday, hday, .some hthree, hfinal⟩
  | dsgvo => exact ⟨.none, hthree, .none, hfinal⟩
  | gwgSar => exact ⟨.none, hday, .none, hfinal⟩

/-- No deadline is earlier for a later input, but where the bases of the final report stand
at the end of a month and the start of the next. -/
theorem noEarlier_iff {x y : DeadlineInput} (offset : ℤ) (regime : IncidentRegime)
    (h : Later x y) :
    NoEarlier (computeIncidentDeadlines offset regime x)
        (computeIncidentDeadlines offset regime y) ↔
      ∀ s ∈ finalBase regime x, ∀ t ∈ finalBase regime y, ¬ Overtaken offset s t := by
  rw [noEarlier_iff_final offset regime h]
  have hbase := finalBase_rel regime h
  cases hx : finalBase regime x with
  | some s =>
    rw [hx] at hbase
    obtain ⟨t, hy, hst⟩ : ∃ t, finalBase regime y = some t ∧ s ≤ t := by
      cases hy : finalBase regime y with
      | none => rw [hy] at hbase; cases hbase
      | some t =>
        rw [hy] at hbase
        cases hbase with
        | some hst => exact ⟨t, rfl, hst⟩
    rw [finalDueAt_of_base offset hx, finalDueAt_of_base offset hy, hy]
    simp [addMonth_le_iff hst]
  | none =>
    simp only [Option.mem_def, reduceCtorEq, false_implies, implies_true, iff_true]
    cases regime with
    | craVuln =>
      have hmitigation := h.mitigationAvailableAt
      unfold computeIncidentDeadlines
      dsimp only
      generalize x.mitigationAvailableAt = s at hmitigation
      generalize y.mitigationAvailableAt = t at hmitigation
      cases hmitigation with
      | none => exact .none
      | some hst => exact .some (by simpa using hst)
    | dsgvo => exact .none
    | gwgSar => exact .none
    | dora => cases hx
    | nis2 => cases hx
    | craIncident => cases hx

/-- A month is four weeks at least. -/
theorem addMonth_ge (offset t : ℤ) : t + 28 * msPerDay ≤ addMonth offset t := by
  have h := (monthDays_bounds (monthAt offset t)).1
  unfold addMonth
  rw [nextMonth_eq]
  unfold msPerDay
  omega

/-- Initial, intermediate and final report of DORA. -/
theorem dora_inOrder_iff {x : DeadlineInput} (offset : ℤ) (h : NotBefore x) :
    InOrder (computeIncidentDeadlines offset .dora x) ↔
      ∀ i ∈ x.initialReportedAt, ∀ m ∈ x.intermediateReportedAt,
        i + 72 * msPerHour ≤ addMonth offset m := by
  have hdue := doraInitialDueAt_bounds x
  have hinitial := h.initialReportedAt
  have hsecond := h.intermediateReportedAt
  have hfirst : doraInitialDueAt x ≤
      x.initialReportedAt.getD (doraInitialDueAt x) + 72 * msPerHour := by
    unfold msPerHour at hdue ⊢
    cases hi : x.initialReportedAt with
    | none => simp
    | some i =>
      have := hinitial i hi
      simp only [Option.getD_some]
      omega
  constructor
  · rintro horder i hi m hm
    have := horder.intermediate_final _ rfl _ rfl
    rw [hi, hm] at this
    exact this
  · intro hlate
    have hmonth := addMonth_ge offset
    have hlast : x.initialReportedAt.getD (doraInitialDueAt x) + 72 * msPerHour ≤
        addMonth offset (x.intermediateReportedAt.getD
          (x.initialReportedAt.getD (doraInitialDueAt x) + 72 * msPerHour)) := by
      cases hm : x.intermediateReportedAt with
      | none =>
        have := hmonth (x.initialReportedAt.getD (doraInitialDueAt x) + 72 * msPerHour)
        unfold msPerDay at this
        simp only [Option.getD_none]
        omega
      | some m =>
        cases hi : x.initialReportedAt with
        | none =>
          have haware := hsecond m hm
          have := hmonth m
          unfold msPerDay at this
          unfold msPerHour at hdue ⊢
          simp only [Option.getD_none, Option.getD_some]
          omega
        | some i => exact hlate i hi m hm
    refine ⟨?_, ?_, ?_⟩
    · rintro _ ⟨⟩
      exact hfirst
    · rintro _ ⟨⟩ _ ⟨⟩
      exact hlast
    · rintro _ ⟨⟩
      exact hfirst.trans hlast

/-- A day and three days from awareness are in order before any later final report. -/
theorem inOrder_of_three_days {d : Deadlines} {aware : ℤ}
    (hinitial : d.initialDueAt = aware + 24 * msPerHour)
    (hsecond : d.intermediateDueAt = some (aware + 72 * msPerHour))
    (hfinal : ∀ f ∈ d.finalDueAt, aware + 72 * msPerHour ≤ f) : InOrder d := by
  unfold msPerHour at hinitial hsecond hfinal
  refine ⟨fun m hm => ?_, fun m hm f hf => ?_, fun f hf => ?_⟩
  · rw [hsecond] at hm
    cases hm
    omega
  · rw [hsecond] at hm
    cases hm
    exact hfinal f hf
  · have := hfinal f hf
    omega

/-- A single deadline is in order. -/
theorem inOrder_of_single {d : Deadlines} (hsecond : d.intermediateDueAt = none)
    (hfinal : d.finalDueAt = none) : InOrder d := by
  refine ⟨?_, ?_, ?_⟩ <;> simp [hsecond, hfinal]

/-- Of deadlines whose other times are not before awareness only DORA's can be out of order,
where the intermediate report was made a month before the first report allows it. -/
theorem inOrder_iff {x : DeadlineInput} (offset : ℤ) (regime : IncidentRegime)
    (h : NotBefore x) :
    InOrder (computeIncidentDeadlines offset regime x) ↔
      (regime = .dora → ∀ i ∈ x.initialReportedAt, ∀ m ∈ x.intermediateReportedAt,
        i + 72 * msPerHour ≤ addMonth offset m) := by
  have hmonth : ∀ t, x.awareAt ≤ t → x.awareAt + 72 * msPerHour ≤ addMonth offset t := by
    intro t ht
    have := addMonth_ge offset t
    unfold msPerDay at this
    unfold msPerHour
    omega
  cases regime with
  | dora => simpa using dora_inOrder_iff offset h
  | nis2 =>
    refine iff_of_true (inOrder_of_three_days rfl rfl ?_) (by rintro ⟨⟩)
    rintro _ ⟨⟩
    exact hmonth _ le_rfl
  | craVuln =>
    refine iff_of_true (inOrder_of_three_days rfl rfl ?_) (by rintro ⟨⟩)
    intro f hf
    obtain ⟨t, ht, rfl⟩ := Option.map_eq_some_iff.mp hf
    have := h.mitigationAvailableAt t ht
    unfold msPerHour
    omega
  | craIncident =>
    refine iff_of_true (inOrder_of_three_days rfl rfl ?_) (by rintro ⟨⟩)
    rintro _ ⟨⟩
    apply hmonth
    cases hm : x.intermediateReportedAt with
    | none =>
      unfold msPerHour
      simp only [Option.getD_none]
      omega
    | some m => exact h.intermediateReportedAt m hm
  | dsgvo => exact iff_of_true (inOrder_of_single rfl rfl) (by rintro ⟨⟩)
  | gwgSar => exact iff_of_true (inOrder_of_single rfl rfl) (by rintro ⟨⟩)

/-! ## The deadlines of an incident -/

/-- The final report is due on the same day of the month after its base, or on that
month's last day. -/
def MonthAfterBase (offset : ℤ) (regime : IncidentRegime) (input : DeadlineInput) : Prop :=
  ∀ base ∈ finalBase regime input,
    (computeIncidentDeadlines offset regime input).finalDueAt = some (sameDayNextMonth offset base)

/-- The month after the base has the day of the month on which the base falls. -/
def DayExists (offset : ℤ) (regime : IncidentRegime) (input : DeadlineInput) : Prop :=
  ∀ base ∈ finalBase regime input,
    dayOfMonth ((base + offset) / msPerDay) ≤ monthDays (monthAt offset base + 1)

/-- When the deadlines of an incident move with its times, stand in order, and give the
final report a month of the calendar. -/
theorem computeIncidentDeadlines_calendar (offset : ℤ) (regime : IncidentRegime)
    (x y : DeadlineInput) :
    (Later x y →
      (NoEarlier (computeIncidentDeadlines offset regime x)
          (computeIncidentDeadlines offset regime y) ↔
        ∀ s ∈ finalBase regime x, ∀ t ∈ finalBase regime y, ¬ Overtaken offset s t)) ∧
    (NotBefore x →
      (InOrder (computeIncidentDeadlines offset regime x) ↔
        (regime = .dora → ∀ i ∈ x.initialReportedAt, ∀ m ∈ x.intermediateReportedAt,
          i + 72 * msPerHour ≤ addMonth offset m))) ∧
    (MonthAfterBase offset regime x ↔ DayExists offset regime x) := by
  refine ⟨noEarlier_iff offset regime, inOrder_iff offset regime, ?_⟩
  unfold MonthAfterBase DayExists
  refine forall₂_congr fun base hbase => ?_
  rw [finalDueAt_of_base offset hbase, Option.some.injEq]
  exact addMonth_eq_sameDay_iff offset base

/-- An incident of which only the day of awareness is known. -/
def knownSince (day : ℤ) : DeadlineInput := ⟨day * msPerDay, none, none, none, none⟩

theorem knownSince_later {a b : ℤ} (h : a ≤ b) : Later (knownSince a) (knownSince b) := by
  refine ⟨?_, .none, .none, .none, .none⟩
  unfold knownSince msPerDay
  dsimp only
  omega

theorem knownSince_notBefore (a : ℤ) : NotBefore (knownSince a) := by
  refine ⟨?_, ?_, ?_, ?_⟩ <;> simp [knownSince]

/-- Incidents known since 31 January and since 16 February 2026. -/
theorem calendar_of_february :
    NoEarlier (computeIncidentDeadlines 0 .nis2 (knownSince 20484))
      (computeIncidentDeadlines 0 .nis2 (knownSince 20500)) ∧
    InOrder (computeIncidentDeadlines 0 .nis2 (knownSince 20484)) := by
  have h := computeIncidentDeadlines_calendar 0 .nis2 (knownSince 20484) (knownSince 20500)
  refine ⟨(h.1 (knownSince_later (by norm_num))).mpr ?_,
    (h.2.1 (knownSince_notBefore _)).mpr (by rintro ⟨⟩)⟩
  rintro _ ⟨⟩ _ ⟨⟩ ⟨-, hnear⟩
  revert hnear
  decide

/-- An incident known since 31 January 2026: under NIS 2 its final report is due on 3 March,
not on 28 February, and one known since 1 February has its report due before it. -/
theorem final_report_in_march :
    (computeIncidentDeadlines 0 .nis2 (knownSince 20484)).finalDueAt = some (20515 * msPerDay) ∧
    ¬ MonthAfterBase 0 .nis2 (knownSince 20484) ∧
    Later (knownSince 20484) (knownSince 20485) ∧
    ¬ NoEarlier (computeIncidentDeadlines 0 .nis2 (knownSince 20484))
      (computeIncidentDeadlines 0 .nis2 (knownSince 20485)) := by
  have hlater := knownSince_later (a := 20484) (b := 20485) (by norm_num)
  have hmarch : addMonth 0 (20484 * msPerDay) = 20515 * msPerDay := by decide
  refine ⟨congrArg some hmarch, ?_, hlater, ?_⟩
  · intro hmonth
    have hday := (addMonth_eq_sameDay_iff 0 (20484 * msPerDay)).mp
      (Option.some.inj (hmonth _ rfl))
    revert hday
    decide
  · intro hno
    rw [noEarlier_iff 0 .nis2 hlater] at hno
    apply hno _ rfl _ rfl
    unfold Overtaken
    decide

end Klick.Incident
