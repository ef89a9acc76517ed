-- Runs of the compliance tick beside people at work. The update of a run or of an exception
-- does not repeat the status that the tick has read, so a decision of a person in between is
-- lost; a training is only written while it is due.
import Klick.ComplianceTick

open Js Interleaving

namespace Klick.ComplianceTick

/-! ## The rules -/

/-- What a person has decided stays: a run that is done or waived, a training that is done, an
exception that was revoked; one that was created or approved expires only at its date. -/
structure Sound (w : World) : Prop where
  runs : ∀ r ∈ w.runs, ∀ d ∈ r.decided, r.status = d.status
  trainings : ∀ ta ∈ w.trainings, ta.finished = true → ta.status = .done
  exceptions : ∀ x ∈ w.exceptions, x.status = x.decided ∨
    (x.decided ≠ .revoked ∧ x.status = .expired ∧ x.validUntil ≤ w.clock)

/-- Nobody completes or waives a run, and nobody revokes an exception, that the tick has read
and is going to write. -/
def Undisturbed (w : World) : Act → Prop
  | .completeRun id => ∀ t ∈ w.tick, ∀ a ∈ t.upcoming, a.row ≠ .run id
  | .waiveRun id => ∀ t ∈ w.tick, ∀ a ∈ t.upcoming, a.row ≠ .run id
  | .decideException id approved => approved = false →
      ∀ t ∈ w.tick, ∀ a ∈ t.upcoming, a.row ≠ .exception id
  | _ => True

instance (w : World) (a : Act) : Decidable (Undisturbed w a) := by
  cases a <;> unfold Undisturbed <;> infer_instance

/-- No tick is under way. -/
structure World.Fresh (w : World) : Prop where
  sound : Sound w
  runIds : (w.runs.map (·.id)).Nodup
  exceptionIds : (w.exceptions.map (·.id)).Nodup
  tick : w.tick = none

/-! ## Actions that undo nothing -/

/-- The rows that an action writes are not such that a person has decided. -/
def Harmless (w : World) : TickAction → Prop
  | .markRunDue id => ∀ r ∈ w.runs, r.id = id → r.decided = none
  | .markRunOverdue id => ∀ r ∈ w.runs, r.id = id → r.decided = none
  | .expireException id => (∃ x ∈ w.exceptions, x.id = id) ∧
      ∀ x ∈ w.exceptions, x.id = id → x.decided ≠ .revoked ∧ x.validUntil ≤ w.clock
  | _ => True

/-- An action depends on the runs, the exceptions and the time. -/
theorem Harmless.same {w w' : World} {a : TickAction} (h : Harmless w a) (hruns : w'.runs = w.runs)
    (hexceptions : w'.exceptions = w.exceptions) (hclock : w.clock ≤ w'.clock) :
    Harmless w' a := by
  cases a with
  | markRunDue id =>
    unfold Harmless at h ⊢
    rwa [hruns]
  | markRunOverdue id =>
    unfold Harmless at h ⊢
    rwa [hruns]
  | expireException id =>
    unfold Harmless at h ⊢
    rw [hexceptions]
    exact ⟨h.1, fun x hx hid => ⟨(h.2 x hx hid).1, (h.2 x hx hid).2.trans hclock⟩⟩
  | markTrainingOverdue id => trivial
  | reopenFinding id => trivial

/-- Runs are written, but not the one of the action, or not what a person has decided. -/
theorem Harmless.setRuns {w : World} {a : TickAction} (h : Harmless w a) {p : RunRow → Bool}
    {f : RunRow → RunRow} (hid : ∀ r, (f r).id = r.id)
    (hother : ∀ r, p r = true → a.row ≠ .run r.id ∨ (f r).decided = r.decided) :
    Harmless (w.setRuns p f) a := by
  have hrun : ∀ id, a.row = .run id → (∀ r ∈ w.runs, r.id = id → r.decided = none) →
      ∀ r ∈ updateRows p f w.runs, r.id = id → r.decided = none := by
    intro id hrow hnone r hr heq
    rcases mem_updateRows.mp hr with ⟨s, hs, hp, rfl⟩ | ⟨hr, -⟩
    · rw [hid] at heq
      rcases hother s hp with hne | hsame
      · exact absurd (heq ▸ hrow) hne
      · rw [hsame]
        exact hnone s hs heq
    · exact hnone r hr heq
  cases a with
  | markRunDue id => exact hrun id rfl h
  | markRunOverdue id => exact hrun id rfl h
  | expireException id => exact h
  | markTrainingOverdue id => trivial
  | reopenFinding id => trivial

theorem Harmless.setExceptions {w : World} {a : TickAction} (h : Harmless w a)
    {p : ExceptionRow → Bool} {f : ExceptionRow → ExceptionRow} (hid : ∀ x, (f x).id = x.id)
    (huntil : ∀ x, (f x).validUntil = x.validUntil)
    (hother : ∀ x, p x = true → a.row ≠ .exception x.id ∨ (x.decided ≠ .revoked →
      (f x).decided ≠ .revoked)) : Harmless (w.setExceptions p f) a := by
  cases a with
  | expireException id =>
    obtain ⟨⟨x, hx, hxid⟩, hall⟩ := h
    constructor
    · by_cases hp : p x = true
      · exact ⟨f x, mem_updateRows.mpr (.inl ⟨x, hx, hp, rfl⟩), (hid x).trans hxid⟩
      · exact ⟨x, mem_updateRows.mpr (.inr ⟨hx, Bool.eq_false_of_not_eq_true hp⟩), hxid⟩
    · intro y hy heq
      rcases mem_updateRows.mp hy with ⟨s, hs, hp, rfl⟩ | ⟨hy, -⟩
      · rw [hid] at heq
        obtain ⟨hkept, hdate⟩ := hall s hs heq
        refine ⟨?_, (huntil s).trans_le hdate⟩
        rcases hother s hp with hne | hsame
        · exact absurd (by rw [heq]; rfl) hne
        · exact hsame hkept
      · exact hall y hy heq
  | markRunDue id => exact h
  | markRunOverdue id => exact h
  | markTrainingOverdue id => trivial
  | reopenFinding id => trivial

/-- What the tick sets leaves other actions harmless. -/
theorem Harmless.apply {w : World} {a : TickAction} (h : Harmless w a) (b : TickAction) :
    Harmless (w.apply b) a := by
  cases b with
  | expireException id =>
    exact h.setExceptions (fun _ => rfl) (fun _ => rfl) (fun _ _ => .inr fun hkept => hkept)
  | markTrainingOverdue id => exact h.same rfl rfl le_rfl
  | markRunDue id => exact h.setRuns (fun _ => rfl) (fun _ _ => .inr rfl)
  | markRunOverdue id => exact h.setRuns (fun _ => rfl) (fun _ _ => .inr rfl)
  | reopenFinding id => exact h.same rfl rfl le_rfl

/-! ## Rows that stay sound -/

theorem Sound.setRuns {w : World} (h : Sound w) {p : RunRow → Bool} {f : RunRow → RunRow}
    (hf : ∀ r ∈ w.runs, p r = true → ∀ d ∈ (f r).decided, (f r).status = d.status) :
    Sound (w.setRuns p f) where
  runs r hr := by
    rcases mem_updateRows.mp hr with ⟨s, hs, hp, rfl⟩ | ⟨hr, -⟩
    · exact hf s hs hp
    · exact h.runs r hr
  trainings := h.trainings
  exceptions := h.exceptions

theorem Sound.setTrainings {w : World} (h : Sound w) {p : TrainingRow → Bool}
    {f : TrainingRow → TrainingRow}
    (hf : ∀ ta ∈ w.trainings, p ta = true → (f ta).finished = true → (f ta).status = .done) :
    Sound (w.setTrainings p f) where
  runs := h.runs
  trainings ta hta := by
    rcases mem_updateRows.mp hta with ⟨s, hs, hp, rfl⟩ | ⟨hta, -⟩
    · exact hf s hs hp
    · exact h.trainings ta hta
  exceptions := h.exceptions

theorem Sound.setExceptions {w : World} (h : Sound w) {p : ExceptionRow → Bool}
    {f : ExceptionRow → ExceptionRow}
    (hf : ∀ x ∈ w.exceptions, p x = true → (f x).status = (f x).decided ∨
      ((f x).decided ≠ .revoked ∧ (f x).status = .expired ∧ (f x).validUntil ≤ w.clock)) :
    Sound (w.setExceptions p f) where
  runs := h.runs
  trainings := h.trainings
  exceptions x hx := by
    rcases mem_updateRows.mp hx with ⟨s, hs, hp, rfl⟩ | ⟨hx, -⟩
    · exact hf s hs hp
    · exact h.exceptions x hx

/-- **A harmless action of the tick undoes no decision.** -/
theorem Sound.apply {w : World} (h : Sound w) {a : TickAction} (ha : Harmless w a) :
    Sound (w.apply a) := by
  have hrun : ∀ id, (∀ r ∈ w.runs, r.id = id → r.decided = none) → ∀ status,
      Sound (w.setRuns (·.id = id) fun r => { r with status }) := by
    intro id hnone status
    apply h.setRuns
    intro r hr hp d hd
    rw [hnone r hr (of_decide_eq_true hp)] at hd
    cases hd
  cases a with
  | expireException id =>
    apply h.setExceptions
    intro x hx hp
    obtain ⟨hkept, hdate⟩ := ha.2 x hx (of_decide_eq_true hp)
    exact .inr ⟨hkept, rfl, hdate⟩
  | markTrainingOverdue id =>
    apply h.setTrainings
    intro ta hta hp hfinished
    have hdone := h.trainings ta hta hfinished
    simp [hdone] at hp
  | markRunDue id => exact hrun id ha .due
  | markRunOverdue id => exact hrun id ha .overdue
  | reopenFinding id => exact ⟨h.runs, h.trainings, h.exceptions⟩

/-! ## What the tick reads -/

/-- An action of the rows after a table was read is one of before, or of a row of that table. -/
theorem collect_load {w : World} {t : Tick} {n : ℕ} {rows : DueRows}
    (h : loadRows w t n = some rows) {a : TickAction} (ha : a ∈ collectDueItems t.now rows) :
    a ∈ collectDueItems t.now t.rows ∨
      (∃ x ∈ w.exceptions, isOpenException x = true ∧ exceptionAction t.now x = some a) ∨
      (∃ r ∈ w.runs ++ t.planned, isDueRun r = true ∧ runAction t.now r = some a) ∨
      (∃ id, a = .markTrainingOverdue id) ∨ ∃ id, a = .reopenFinding id := by
  have htraining : ∀ ta, trainingAction t.now ta = some a → ∃ id, a = .markTrainingOverdue id := by
    intro ta hta
    unfold trainingAction at hta
    split_ifs at hta
    exact ⟨ta.id, (Option.some.inj hta).symm⟩
  have hfinding : ∀ f, findingAction t.now f = some a → ∃ id, a = .reopenFinding id := by
    intro f hf
    unfold findingAction at hf
    split_ifs at hf
    split at hf
    · cases hf
    · split_ifs at hf
      exact ⟨f.id, (Option.some.inj hf).symm⟩
  unfold collectDueItems at ha ⊢
  simp only [List.mem_append, List.mem_filterMap] at ha ⊢
  rcases ha with ((⟨x, hx, hxa⟩ | ⟨ta, -, hta⟩) | ⟨r, hr, hra⟩) | ⟨f, -, hf⟩
  · match n, h with
    | 0, h =>
      cases h
      obtain ⟨hx, hopen⟩ := List.mem_filter.mp hx
      exact .inr (.inl ⟨x, hx, hopen, hxa⟩)
    | 1, h | 2, h | 3, h =>
      cases h
      exact .inl (.inl (.inl (.inl ⟨x, hx, hxa⟩)))
  · exact .inr (.inr (.inr (.inl (htraining ta hta))))
  · match n, h with
    | 2, h =>
      cases h
      obtain ⟨hr, hdue⟩ := List.mem_filter.mp hr
      exact .inr (.inr (.inl ⟨r, List.mem_append.mp hr, hdue, hra⟩))
    | 0, h | 1, h | 3, h =>
      cases h
      exact .inl (.inl (.inr ⟨r, hr, hra⟩))
  · exact .inr (.inr (.inr (.inr (hfinding f hf))))

theorem exceptionAction_eq {now : ℤ} {x : ExceptionRow} {a : TickAction}
    (h : exceptionAction now x = some a) : a = .expireException x.id ∧ x.validUntil ≤ now := by
  unfold exceptionAction at h
  split_ifs at h with hopen hdate
  exact ⟨(Option.some.inj h).symm, hdate⟩

theorem runAction_eq {now : ℤ} {r : RunRow} {a : TickAction} (h : runAction now r = some a) :
    a = .markRunDue r.id ∨ a = .markRunOverdue r.id := by
  unfold runAction at h
  split_ifs at h
  · exact .inr (Option.some.inj h).symm
  · exact .inl (Option.some.inj h).symm

/-- A run that is read as open was not decided. -/
theorem decided_of_due {r : RunRow} (hsound : ∀ d ∈ r.decided, r.status = d.status)
    (h : isDueRun r = true) : r.decided = none := by
  cases hd : r.decided with
  | none => rfl
  | some d =>
    have hstatus := hsound d hd
    unfold isDueRun at h
    cases d <;> simp [hstatus, RunDecision.status] at h

/-! ## The invariant -/

structure TickInv (w : World) (t : Tick) : Prop where
  now_le : t.now ≤ w.clock
  planned : ∀ r ∈ t.planned, r.decided = none
  fresh : ((w.runs ++ t.planned).map (·.id)).Nodup
  upcoming : ∀ a ∈ t.upcoming, Harmless w a
  writes : ∀ a ∈ t.writes, Harmless w a

structure Inv (w : World) : Prop where
  sound : Sound w
  runIds : (w.runs.map (·.id)).Nodup
  exceptionIds : (w.exceptions.map (·.id)).Nodup
  tick : ∀ t ∈ w.tick, TickInv w t

/-- A person writes; the actions of the tick stay harmless. -/
theorem Inv.people {w w' : World} (h : Inv w) (hsound : Sound w')
    (hruns : w'.runs.map (·.id) = w.runs.map (·.id))
    (hexceptions : (w'.exceptions.map (·.id)).Nodup) (hclock : w.clock ≤ w'.clock)
    (htick : w'.tick = w.tick)
    (hharmless : ∀ t ∈ w.tick, ∀ a, a ∈ t.upcoming ∨ a ∈ t.writes → Harmless w a →
      Harmless w' a) : Inv w' where
  sound := hsound
  runIds := hruns ▸ h.runIds
  exceptionIds := hexceptions
  tick t ht := by
    rw [htick] at ht
    have hinv := h.tick t ht
    refine ⟨hinv.now_le.trans hclock, hinv.planned, ?_, ?_, ?_⟩
    · rw [List.map_append, hruns, ← List.map_append]
      exact hinv.fresh
    · exact fun a ha => hharmless t ht a (.inl ha) (hinv.upcoming a ha)
    · exact fun a ha => hharmless t ht a (.inr ha) (hinv.writes a ha)

theorem setRuns_ids {w : World} {p : RunRow → Bool} {f : RunRow → RunRow}
    (hid : ∀ r, (f r).id = r.id) : (w.setRuns p f).runs.map (·.id) = w.runs.map (·.id) :=
  map_updateRows hid _

theorem setExceptions_ids {w : World} {p : ExceptionRow → Bool} {f : ExceptionRow → ExceptionRow}
    (hid : ∀ x, (f x).id = x.id) :
    (w.setExceptions p f).exceptions.map (·.id) = w.exceptions.map (·.id) :=
  map_updateRows hid _

/-- A person decides about a run that the tick is not going to write. -/
theorem Inv.decideRun {w : World} (h : Inv w) {id : Text} {d : RunDecision}
    (hlocked : ¬ w.Locked (.run id)) (hok : ∀ t ∈ w.tick, ∀ a ∈ t.upcoming, a.row ≠ .run id) :
    Inv (w.setRuns (·.id = id) fun r => { r with status := d.status, decided := some d }) := by
  refine h.people ?_ (setRuns_ids ?_) h.exceptionIds le_rfl rfl ?_
  · apply h.sound.setRuns
    intro r hr hp e he
    cases he
    rfl
  · exact fun _ => rfl
  · intro t ht a ha hharmless
    refine hharmless.setRuns (fun r => ?_) (fun r hp => ?_)
    · rfl
    left
    rw [of_decide_eq_true hp]
    rcases ha with ha | ha
    · exact hok t ht a ha
    · exact fun heq => hlocked ⟨t, ht, a, ha, heq⟩

theorem Inv.decideException {w : World} (h : Inv w) {id : Text} {approved : Bool}
    (hlocked : ¬ w.Locked (.exception id)) (hok : approved = false →
      ∀ t ∈ w.tick, ∀ a ∈ t.upcoming, a.row ≠ .exception id) {status : ExceptionStatus}
    (hstatus : status = if approved then .approved else .revoked) :
    Inv (w.setExceptions (·.id = id) fun x => { x with status, decided := status }) := by
  refine h.people ?_ rfl ?_ le_rfl rfl ?_
  · apply h.sound.setExceptions
    exact fun x _ _ => .inl rfl
  · rw [setExceptions_ids]
    · exact h.exceptionIds
    · exact fun _ => rfl
  · intro t ht a ha hharmless
    refine hharmless.setExceptions (fun x => ?_) (fun x => ?_) (fun x hp => ?_)
    · rfl
    · rfl
    rw [of_decide_eq_true hp]
    rcases ha with ha | ha
    · by_cases happroved : approved = true
      · right
        intro _
        dsimp only
        rw [hstatus, if_pos happroved]
        decide
      · exact .inl (hok (Bool.eq_false_of_not_eq_true happroved) t ht a ha)
    · exact .inl fun heq => hlocked ⟨t, ht, a, ha, heq⟩

/-- A person writes trainings only. -/
theorem Inv.trainings {w w' : World} (h : Inv w) (hruns : w'.runs = w.runs)
    (hexceptions : w'.exceptions = w.exceptions) (hclock : w'.clock = w.clock)
    (htick : w'.tick = w.tick)
    (htrainings : ∀ ta ∈ w'.trainings, ta.finished = true → ta.status = .done) : Inv w' := by
  refine h.people ⟨?_, htrainings, ?_⟩ (by rw [hruns]) ?_ hclock.ge htick ?_
  · rw [hruns]
    exact h.sound.runs
  · rw [hexceptions, hclock]
    exact h.sound.exceptions
  · rw [hexceptions]
    exact h.exceptionIds
  · exact fun t _ a _ hharmless => hharmless.same hruns hexceptions hclock.ge

/-! ## Steps of the tick -/

/-- The tick goes on, without a write that is committed. -/
theorem Inv.setTick {w : World} (h : Inv w) {t t' : Tick} (ht : w.tick = some t)
    (hnow : t'.now = t.now) (hplanned : t'.planned = t.planned)
    (hupcoming : ∀ a ∈ t'.upcoming, Harmless w a) (hwrites : ∀ a ∈ t'.writes, Harmless w a) :
    Inv (w.setTick t') where
  sound := ⟨h.sound.runs, h.sound.trainings, h.sound.exceptions⟩
  runIds := h.runIds
  exceptionIds := h.exceptionIds
  tick u hu := by
    cases hu
    have hinv := h.tick t ht
    refine ⟨hnow ▸ hinv.now_le, hplanned ▸ hinv.planned, hplanned ▸ hinv.fresh, ?_, ?_⟩
    · exact fun a ha => (hupcoming a ha).same rfl rfl le_rfl
    · exact fun a ha => (hwrites a ha).same rfl rfl le_rfl

/-- What is read of sound rows gives harmless actions. -/
theorem Inv.load {w : World} (h : Inv w) {t : Tick} (ht : w.tick = some t) {n : ℕ}
    {rows : DueRows} (hold : ∀ a ∈ collectDueItems t.now t.rows, Harmless w a)
    (hload : loadRows w t n = some rows) : ∀ a ∈ collectDueItems t.now rows, Harmless w a := by
  intro a ha
  have hinv := h.tick t ht
  rcases collect_load hload ha with hin | ⟨x, hx, hopen, hxa⟩ | ⟨r, hr, hdue, hra⟩ |
    ⟨id, rfl⟩ | ⟨id, rfl⟩
  · exact hold a hin
  · obtain ⟨rfl, hdate⟩ := exceptionAction_eq hxa
    refine ⟨⟨x, hx, rfl⟩, ?_⟩
    intro y hy hid
    cases List.inj_on_of_nodup_map h.exceptionIds hy hx hid
    refine ⟨?_, hdate.trans hinv.now_le⟩
    intro hrevoked
    unfold isOpenException at hopen
    rcases h.sound.exceptions _ hx with heq | ⟨hne, -, -⟩
    · rw [hrevoked] at heq
      simp [heq] at hopen
    · exact hne hrevoked
  · have hnone : ∀ s ∈ w.runs, s.id = r.id → s.decided = none := by
      intro s hs hid
      have heq := List.inj_on_of_nodup_map hinv.fresh (List.mem_append_left _ hs) hr hid
      exact decided_of_due (h.sound.runs s hs) (heq ▸ hdue)
    rcases runAction_eq hra with rfl | rfl
    · exact hnone
    · exact hnone
  · trivial
  · trivial

/-- What is committed together. -/
theorem Inv.commit {w : World} (h : Inv w) {t : Tick} (ht : w.tick = some t) :
    Inv (w.commit t) := by
  have hinv := h.tick t ht
  have hrun : ∀ (writes : List TickAction) (u : World), Inv u → u.tick = none →
      (∀ a ∈ writes, Harmless u a) → Inv (writes.foldl World.apply u) := by
    intro writes
    induction writes with
    | nil => exact fun u hu _ _ => hu
    | cons a rest ih =>
      intro u hu hnone hall
      have htick : (u.apply a).tick = none := by
        cases a <;> exact hnone
      apply ih _ _ htick
      · exact fun b hb => (hall b (List.mem_cons_of_mem _ hb)).apply a
      · refine ⟨hu.sound.apply (hall a List.mem_cons_self), ?_, ?_, ?_⟩
        · have hids : (u.apply a).runs.map (·.id) = u.runs.map (·.id) := by
            cases a <;> first | rfl | exact setRuns_ids fun _ => rfl
          exact hids ▸ hu.runIds
        · have hids : (u.apply a).exceptions.map (·.id) = u.exceptions.map (·.id) := by
            cases a <;> first | rfl | exact setExceptions_ids fun _ => rfl
          exact hids ▸ hu.exceptionIds
        · rw [htick]
          exact fun t ht => nomatch ht
  unfold World.commit
  apply hrun
  · refine ⟨⟨?_, h.sound.trainings, h.sound.exceptions⟩, hinv.fresh, h.exceptionIds, ?_⟩
    · intro r hr d hd
      rcases List.mem_append.mp hr with hr | hr
      · exact h.sound.runs r hr d hd
      · rw [hinv.planned r hr] at hd
        cases hd
    · exact fun t ht => nomatch ht
  · rfl
  · intro a ha
    have hharmless := hinv.writes a ha
    have hrun : ∀ id, (∀ r ∈ w.runs, r.id = id → r.decided = none) →
        ∀ r ∈ w.runs ++ t.planned, r.id = id → r.decided = none := by
      intro id hnone r hr hid
      rcases List.mem_append.mp hr with hr | hr
      · exact hnone r hr hid
      · exact hinv.planned r hr
    cases a with
    | markRunDue id => exact hrun id hharmless
    | markRunOverdue id => exact hrun id hharmless
    | expireException id => exact hharmless
    | markTrainingOverdue id => trivial
    | reopenFinding id => trivial

/-- **A step of the tick keeps its actions harmless.** -/
theorem Inv.tickStep {w w' : World} (h : Inv w) {t : Tick} (ht : w.tick = some t) {act : Act}
    (hstep : tickStep w t act = some w') : Inv w' := by
  have hinv := h.tick t ht
  unfold ComplianceTick.tickStep at hstep
  split at hstep
  · split at hstep
    · rename_i n hstage
      obtain ⟨rows, hload, rfl⟩ := Option.map_eq_some_iff.mp hstep
      have hold : ∀ a ∈ collectDueItems t.now t.rows, Harmless w a := by
        intro a ha
        apply hinv.upcoming a
        unfold Tick.upcoming
        rwa [hstage]
      exact h.setTick ht rfl rfl (h.load ht hold hload) hinv.writes
    · cases hstep
  · split_ifs at hstep with hstage
    cases hstep
    refine h.setTick ht rfl rfl ?_ hinv.writes
    intro a ha
    apply hinv.upcoming a
    unfold Tick.upcoming
    rwa [hstage]
  · split at hstep
    · rename_i a rest hstage
      have hup : ∀ b ∈ a :: rest, Harmless w b := by
        intro b hb
        apply hinv.upcoming b
        unfold Tick.upcoming
        rwa [hstage]
      obtain ⟨goOn, -, rfl⟩ := Option.map_eq_some_iff.mp hstep
      refine h.setTick ht rfl rfl ?_ hinv.writes
      intro b hb
      unfold Tick.upcoming at hb
      dsimp only at hb
      by_cases hgo : goOn = true
      · rw [if_pos hgo] at hb
        exact hup b hb
      · rw [if_neg hgo] at hb
        exact hup b (List.mem_cons_of_mem _ hb)
    · cases hstep
  · split at hstep
    · rename_i a rest selected hstage
      have hup : ∀ b ∈ a :: rest, Harmless w b := by
        intro b hb
        apply hinv.upcoming b
        unfold Tick.upcoming
        rwa [hstage]
      by_cases hselected : selected = (selectRow w a).isSome
      · rw [if_pos hselected] at hstep
        cases hstep
        refine h.setTick ht rfl rfl (fun b hb => hup b (List.mem_cons_of_mem _ hb)) ?_
        intro b hb
        dsimp only at hb
        split_ifs at hb
        · rcases List.mem_append.mp hb with hb | hb
          · exact hinv.writes b hb
          · rw [List.mem_singleton.mp hb]
            exact hup a List.mem_cons_self
        · exact hinv.writes b hb
      · rw [if_neg hselected] at hstep
        cases hstep
    · cases hstep
  · split_ifs at hstep
    cases hstep
    exact h.commit ht
  · cases hstep
    refine ⟨⟨h.sound.runs, h.sound.trainings, h.sound.exceptions⟩, h.runIds, h.exceptionIds, ?_⟩
    exact fun t ht => nomatch ht
  · cases hstep

/-! ## Runs -/

theorem Inv.tickAct {w w' : World} (h : Inv w) {act : Act}
    (hstep : (w.tick.bind fun t => ComplianceTick.tickStep w t act) = some w') : Inv w' := by
  obtain ⟨t, ht, hstep⟩ := Option.bind_eq_some_iff.mp hstep
  exact h.tickStep ht hstep

theorem Inv.planRun {w : World} (h : Inv w) {row : RunRow} (hdecided : row.decided = none)
    (hnew : ∀ r ∈ w.runs, r.id ≠ row.id) (hplanned : ∀ t ∈ w.tick, ∀ r ∈ t.planned, r.id ≠ row.id) :
    Inv { w with runs := w.runs ++ [row] } where
  sound := by
    refine ⟨?_, h.sound.trainings, h.sound.exceptions⟩
    intro r hr d hd
    rcases List.mem_append.mp hr with hr | hr
    · exact h.sound.runs r hr d hd
    · rw [List.mem_singleton.mp hr, hdecided] at hd
      cases hd
  runIds := by
    have hperm : (w.runs ++ [row]).Perm (row :: w.runs) := List.perm_append_singleton _ _
    rw [(hperm.map (·.id)).nodup_iff, List.map_cons, List.nodup_cons]
    refine ⟨?_, h.runIds⟩
    intro hin
    obtain ⟨r, hr, hid⟩ := List.mem_map.mp hin
    exact hnew r hr hid
  exceptionIds := h.exceptionIds
  tick t ht := by
    have hinv := h.tick t ht
    have hkeep : ∀ a, Harmless w a → Harmless { w with runs := w.runs ++ [row] } a := by
      intro a ha
      have hrun : ∀ id, (∀ r ∈ w.runs, r.id = id → r.decided = none) →
          ∀ r ∈ w.runs ++ [row], r.id = id → r.decided = none := by
        intro id hnone r hr hid
        rcases List.mem_append.mp hr with hr | hr
        · exact hnone r hr hid
        · rw [List.mem_singleton.mp hr, hdecided]
      cases a with
      | markRunDue id => exact hrun id ha
      | markRunOverdue id => exact hrun id ha
      | expireException id => exact ha
      | markTrainingOverdue id => trivial
      | reopenFinding id => trivial
    refine ⟨hinv.now_le, hinv.planned, ?_, fun a ha => hkeep a (hinv.upcoming a ha),
      fun a ha => hkeep a (hinv.writes a ha)⟩
    have hperm : (w.runs ++ [row] ++ t.planned).Perm (row :: (w.runs ++ t.planned)) := by
      rw [List.append_assoc]
      exact List.perm_middle
    rw [(hperm.map (·.id)).nodup_iff, List.map_cons, List.nodup_cons]
    refine ⟨?_, hinv.fresh⟩
    intro hin
    obtain ⟨r, hr, hid⟩ := List.mem_map.mp hin
    rcases List.mem_append.mp hr with hr | hr
    · exact hnew r hr hid
    · exact hplanned t ht r hr hid

theorem Inv.createException {w : World} (h : Inv w) {x : ExceptionRow}
    (hnew : ∀ y ∈ w.exceptions, y.id ≠ x.id) (hstatus : x.status = x.decided) :
    Inv { w with exceptions := w.exceptions ++ [x] } := by
  refine h.people ⟨h.sound.runs, h.sound.trainings, ?_⟩ rfl ?_ le_rfl rfl ?_
  · intro y hy
    rcases List.mem_append.mp hy with hy | hy
    · exact h.sound.exceptions y hy
    · rw [List.mem_singleton.mp hy]
      exact .inl hstatus
  · have hperm : (w.exceptions ++ [x]).Perm (x :: w.exceptions) := List.perm_append_singleton _ _
    rw [(hperm.map (·.id)).nodup_iff, List.map_cons, List.nodup_cons]
    refine ⟨?_, h.exceptionIds⟩
    intro hin
    obtain ⟨y, hy, hid⟩ := List.mem_map.mp hin
    exact hnew y hy hid
  · intro t _ a _ ha
    cases a with
    | expireException id =>
      obtain ⟨⟨y, hy, hid⟩, hall⟩ := ha
      refine ⟨⟨y, List.mem_append_left _ hy, hid⟩, ?_⟩
      intro z hz hzid
      rcases List.mem_append.mp hz with hz | hz
      · exact hall z hz hzid
      · rw [List.mem_singleton.mp hz] at hzid
        exact absurd (hid.trans hzid.symm) (hnew y hy)
    | markRunDue id => exact ha
    | markRunOverdue id => exact ha
    | markTrainingOverdue id => trivial
    | reopenFinding id => trivial

/-- **An undisturbed step of anybody keeps decisions.** -/
theorem Inv.step {w w' : World} {act : Act} (h : Inv w) (hok : Undisturbed w act)
    (hstep : step w act = some w') : Inv w' := by
  cases act with
  | pass t =>
    simp only [ComplianceTick.step] at hstep
    split_ifs at hstep with hle
    cases hstep
    refine h.people ⟨h.sound.runs, h.sound.trainings, ?_⟩ rfl h.exceptionIds hle rfl ?_
    · intro x hx
      rcases h.sound.exceptions x hx with heq | ⟨hkept, hexpired, hdate⟩
      · exact .inl heq
      · exact .inr ⟨hkept, hexpired, hdate.trans hle⟩
    · exact fun t _ a _ ha => ha.same rfl rfl hle
  | tickStart now planned =>
    simp only [ComplianceTick.step] at hstep
    split_ifs at hstep with hstart
    cases hstep
    obtain ⟨-, hnow, hplanned, hfresh⟩ := hstart
    refine ⟨⟨h.sound.runs, h.sound.trainings, h.sound.exceptions⟩, h.runIds, h.exceptionIds, ?_⟩
    intro t ht
    cases ht
    refine ⟨hnow, fun r hr => (hplanned r hr).2, hfresh, ?_, ?_⟩
    · exact fun a ha => nomatch ha
    · exact fun a ha => nomatch ha
  | tickLoad => exact h.tickAct hstep
  | tickCollect => exact h.tickAct hstep
  | tickSelect => exact h.tickAct hstep
  | tickUpdate => exact h.tickAct hstep
  | tickCommit => exact h.tickAct hstep
  | tickAbort => exact h.tickAct hstep
  | completeRun id =>
    simp only [ComplianceTick.step] at hstep
    split_ifs at hstep with hlocked
    cases hstep
    exact h.decideRun (d := .done) hlocked hok
  | waiveRun id =>
    simp only [ComplianceTick.step] at hstep
    split_ifs at hstep with hlocked
    cases hstep
    exact h.decideRun (d := .waived) hlocked hok
  | planRun row =>
    simp only [ComplianceTick.step] at hstep
    split_ifs at hstep with hnew
    cases hstep
    exact h.planRun hnew.2.1 hnew.2.2.1 hnew.2.2.2
  | updateObligation obligationId leadDays active =>
    cases hstep
    refine h.people ?_ (setRuns_ids ?_) h.exceptionIds le_rfl rfl ?_
    · apply h.sound.setRuns
      exact fun r hr _ => h.sound.runs r hr
    · exact fun _ => rfl
    · intro t _ a _ ha
      refine ha.setRuns (fun r => ?_) (fun r _ => .inr ?_)
      · rfl
      · rfl
  | finishTrainings ids =>
    simp only [ComplianceTick.step] at hstep
    split_ifs at hstep
    cases hstep
    refine h.trainings rfl rfl rfl rfl (h.sound.setTrainings ?_).trainings
    exact fun _ _ _ _ => rfl
  | assignTraining id dueAt =>
    simp only [ComplianceTick.step] at hstep
    split_ifs at hstep
    cases hstep
    refine h.trainings rfl rfl rfl rfl (h.sound.setTrainings ?_).trainings
    exact fun _ _ _ hfinished => nomatch hfinished
  | addTraining id dueAt =>
    cases hstep
    refine h.trainings rfl rfl rfl rfl ?_
    intro ta hta hfinished
    rcases List.mem_append.mp hta with hta | hta
    · exact h.sound.trainings ta hta hfinished
    · rw [List.mem_singleton.mp hta] at hfinished
      cases hfinished
  | unassignTraining id =>
    simp only [ComplianceTick.step] at hstep
    split_ifs at hstep
    cases hstep
    refine h.trainings rfl rfl rfl rfl ?_
    exact fun ta hta => h.sound.trainings ta (List.mem_filter.mp hta).1
  | createException id validUntil approved =>
    simp only [ComplianceTick.step] at hstep
    by_cases hold : ∃ x ∈ w.exceptions, x.id = id
    · rw [if_pos hold] at hstep
      cases hstep
    · rw [if_neg hold] at hstep
      cases hstep
      push Not at hold
      exact h.createException hold rfl
  | decideException id approved =>
    simp only [ComplianceTick.step] at hstep
    by_cases hlocked : w.Locked (.exception id)
    · rw [if_pos hlocked] at hstep
      cases hstep
    · rw [if_neg hlocked] at hstep
      cases hstep
      exact h.decideException hlocked hok rfl
  | decideFinding id status acceptedUntil =>
    simp only [ComplianceTick.step] at hstep
    split_ifs at hstep
    cases hstep
    exact h.trainings rfl rfl rfl rfl h.sound.trainings

/-- **The tick undoes no decision of a person**, in every state of every run in which nobody
completes or waives a run, or revokes an exception, that the tick has read and not written yet. -/
theorem tick_keeps_decisions {start w : World} {as : List Act} (hstart : start.Fresh)
    (halong : Along step Undisturbed start as) (hrun : run step start as = some w) : Sound w := by
  have hinv : Inv start := by
    refine ⟨hstart.sound, hstart.runIds, hstart.exceptionIds, ?_⟩
    rw [hstart.tick]
    exact fun t ht => nomatch ht
  exact (run_keeps (fun _ _ _ h hok hs => h.step hok hs) hinv halong hrun).sound

/-! ## A decision in between -/

/-- A run and an exception of whose dates the tick takes note. -/
def atWork : World where
  clock := 10 * dayMs
  exceptions := [⟨js "x1", 0, .requested, .requested⟩]
  trainings := []
  runs := [⟨js "r1", js "o1", 0, 5, true, .due, none⟩]
  findings := []
  tick := none

theorem atWork_fresh : atWork.Fresh where
  sound := by
    refine ⟨?_, ?_, ?_⟩
    · intro r hr d hd
      rw [List.mem_singleton.mp hr] at hd
      cases hd
    · exact fun ta hta => nomatch hta
    · intro x hx
      rw [List.mem_singleton.mp hx]
      exact .inl rfl
  runIds := by decide
  exceptionIds := by decide
  tick := rfl

/-- The tick has read its rows, and is about to write. -/
def tickLoaded : List Act :=
  [.tickStart (10 * dayMs) [], .tickLoad, .tickLoad, .tickLoad, .tickLoad, .tickCollect]

/-- It writes the exception and the run. -/
def tickWritten : List Act := [.tickSelect, .tickUpdate, .tickUpdate, .tickCommit]

/-- A run is completed and an exception is revoked: the tick makes one overdue, the other
expired. -/
theorem decisions_undone :
    ∃ w, run step atWork (tickLoaded ++ [.completeRun (js "r1"), .decideException (js "x1") false] ++
        tickWritten) = some w ∧
      w.runs = [⟨js "r1", js "o1", 0, 5, true, .overdue, some .done⟩] ∧
      w.exceptions = [⟨js "x1", 0, .expired, .revoked⟩] ∧ ¬ Sound w := by
  have hrows : (run step atWork (tickLoaded ++
      [.completeRun (js "r1"), .decideException (js "x1") false] ++ tickWritten)).map
        (fun w => (w.runs, w.exceptions)) =
      some ([⟨js "r1", js "o1", 0, 5, true, .overdue, some .done⟩],
        [⟨js "x1", 0, .expired, .revoked⟩]) := by decide
  obtain ⟨w, hw, heq⟩ := Option.map_eq_some_iff.mp hrows
  obtain ⟨hruns, hexceptions⟩ := Prod.mk.inj heq
  refine ⟨w, hw, hruns, hexceptions, fun h => ?_⟩
  have hstatus := h.runs _ (hruns ▸ List.mem_cons_self) .done rfl
  cases hstatus

/-- The run is completed before the tick reads it. -/
theorem tick_keeps_decisions_sample :
    ∃ w, run step atWork ([.completeRun (js "r1")] ++ tickLoaded ++
      [.tickSelect, .tickUpdate, .tickCommit]) = some w ∧ Sound w := by
  have hsome : (run step atWork ([.completeRun (js "r1")] ++ tickLoaded ++
      [.tickSelect, .tickUpdate, .tickCommit])).isSome = true := by decide
  obtain ⟨w, hw⟩ := Option.isSome_iff_exists.mp hsome
  refine ⟨w, hw, tick_keeps_decisions atWork_fresh ?_ hw⟩
  decide

end Klick.ComplianceTick
