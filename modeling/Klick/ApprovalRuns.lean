-- Runs of decisions on one request: an approval rests on the required persons,
-- step by step, and a rejection is final.
import Klick.Approvals

open Js

namespace Klick

/-! ## Runs -/

/-- One call of `decide`, with what it reads at that time. -/
structure DecideCall where
  env : DecideEnv
  input : DecideInput

/-- A call that is refused changes nothing. -/
def RequestState.call (st : RequestState) (c : DecideCall) : RequestState :=
  match st.decide c.env c.input with
  | .ok st' => st'
  | .error _ => st

def RequestState.calls (st : RequestState) (cs : List DecideCall) : RequestState :=
  cs.foldl RequestState.call st

/-- The open request that `requestApproval` stores: the snapshot of the steps, standing at the
first step that is not left out. -/
def openRequest (steps : List ApprovalStep) (requestedByUserId : Option Text) (dueAt : Option ℤ) :
    Option RequestState :=
  (firstActiveStep steps).map fun first =>
    ⟨⟨requestedByUserId, first, .pending, dueAt, some steps⟩, []⟩

theorem calls_append {st : RequestState} (cs ds : List DecideCall) :
    st.calls (cs ++ ds) = (st.calls cs).calls ds :=
  List.foldl_append

theorem call_of_decide {st st' : RequestState} {c : DecideCall}
    (h : st.decide c.env c.input = .ok st') : st.call c = st' := by
  unfold RequestState.call
  rw [h]

theorem call_of_error {st : RequestState} {c : DecideCall} {e : DecideError}
    (h : st.decide c.env c.input = .error e) : st.call c = st := by
  unfold RequestState.call
  rw [h]

/-! ## What an approval needs -/

/-- A person whose approval of the step stands in a row: she was eligible when she decided,
for the rule of the row, and is not the requester. -/
def ApprovedBy (cs : List DecideCall) (requester : Option Text) (step : ApprovalStep)
    (ds : List DecisionRow) (rule : Option Text) (person : Text) : Prop :=
  told requester ≠ some person ∧
  ∃ row ∈ ds, row.step = step.order ∧ row.decision = .approved ∧ row.approverUserId = some person ∧
    (∀ r, rule = some r → row.rule = some r) ∧
    ∃ c ∈ cs, ∃ me e, me ∈ c.env.candidates ∧ me.userId = person ∧
      approverEligibility step me ⟨requester, c.env.entityOwnerUserId, none, c.env.delegations⟩
        c.env.candidates = .ok e ∧ ∃ r ∈ e.rules, row.rule = some r

/-- Enough different persons approved the step, in the mode `all` for each of its rules. -/
def SatisfiedBy (cs : List DecideCall) (requester : Option Text) (step : ApprovalStep)
    (ds : List DecisionRow) : Prop :=
  if step.mode = some .all ∧ 1 < (stepRules step).length then
    ∀ rule ∈ stepRules step, ∃ people : List Text, people.Nodup ∧ requiredOf step ≤ people.length ∧
      ∀ person ∈ people, ApprovedBy cs requester step ds (some rule) person
  else
    ∃ people : List Text, people.Nodup ∧ requiredOf step ≤ people.length ∧
      ∀ person ∈ people, ApprovedBy cs requester step ds none person

/-! ## One call -/

theorem decide_eq_ok {env : DecideEnv} {input : DecideInput} {st st' : RequestState} :
    st.decide env input = .ok st' ↔ ∃ row, Nonempty (Acceptance env input st.request
      (onStep st.decisions st.request.currentStep) row) ∧
        st' = ⟨decideWrite env st.request
          (onStep (st.decisions ++ [row]) st.request.currentStep) st.request,
            st.decisions ++ [row]⟩ := by
  unfold RequestState.decide
  constructor
  · intro h
    split at h
    · cases h
    · rename_i row hrow
      exact ⟨row, decideCheck_eq_ok.mp hrow, (Except.ok.inj h).symm⟩
  · rintro ⟨row, hrow, rfl⟩
    rw [decideCheck_eq_ok.mpr hrow]

theorem requestSteps_snapshot {req : ApprovalRequest} {steps ws : List ApprovalStep}
    (h : req.steps = some steps) (hne : steps ≠ []) : requestSteps req ws = steps := by
  unfold requestSteps
  rw [h]
  cases steps with
  | nil => exact absurd rfl hne
  | cons s ss => rfl

/-- What a call writes into the request leaves requester and snapshot alone. -/
theorem decideWrite_frame (env : DecideEnv) (req : ApprovalRequest) (ds : List DecisionRow)
    (row : ApprovalRequest) :
    (decideWrite env req ds row).requestedByUserId = row.requestedByUserId ∧
      (decideWrite env req ds row).steps = row.steps := by
  unfold decideWrite
  dsimp only
  split <;> exact ⟨rfl, rfl⟩

/-- Where a call leaves the request. -/
theorem decideWrite_cases (env : DecideEnv) (req : ApprovalRequest) (ds : List DecisionRow)
    (row : ApprovalRequest) {steps : List ApprovalStep}
    (hsteps : requestSteps req (env.workflowSteps.getD []) = steps) :
    let after := decideWrite env req ds row
    (advance steps req.currentStep ds = .rejected ∧ after.status = .rejected ∧
      after.currentStep = row.currentStep) ∨
    (advance steps req.currentStep ds = .changesRequested ∧ after.status = .changesRequested ∧
      after.currentStep = row.currentStep) ∨
    (advance steps req.currentStep ds = .approved ∧ after.status = .approved ∧
      after.currentStep = row.currentStep) ∨
    ∃ next, advance steps req.currentStep ds = .pending next ∧ after.status = row.status ∧
      after.currentStep = next := by
  intro after
  unfold after decideWrite
  rw [hsteps]
  dsimp only
  cases hadv : advance steps req.currentStep ds with
  | rejected => exact Or.inl ⟨rfl, rfl, rfl⟩
  | changesRequested => exact Or.inr (Or.inl ⟨rfl, rfl, rfl⟩)
  | approved => exact Or.inr (Or.inr (Or.inl ⟨rfl, rfl, rfl⟩))
  | pending next => exact Or.inr (Or.inr (Or.inr ⟨next, rfl, rfl, rfl⟩))

theorem advance_rejected_iff {steps : List ApprovalStep} {cur : ℤ} {ds : List DecisionRow} :
    advance steps cur ds = .rejected ↔ ∃ d ∈ ds, d.decision = .rejected := by
  unfold advance
  by_cases h : (ds.any fun d => d.decision = .rejected) = true
  · rw [if_pos h]
    simpa using h
  · rw [if_neg h]
    constructor
    · intro hadv
      split at hadv
      · cases hadv
      · dsimp only at hadv
        split at hadv
        · cases hadv
        · split at hadv <;> cases hadv
    · intro hd
      exact absurd (by simpa using hd) h

/-- A step is left only when it is satisfied. -/
theorem advance_moves {steps : List ApprovalStep} {cur : ℤ} {ds : List DecisionRow}
    {step : ApprovalStep} (hstep : steps.find? (fun s => s.order = cur) = some step)
    {outcome : RequestOutcome} (h : advance steps cur ds = outcome)
    (hout : outcome = .approved ∨ ∃ next, outcome = .pending next) :
    (outcome = .pending cur ∧ stepSatisfied step ds = false) ∨
      stepSatisfied step ds = true ∧
        ((outcome = .approved ∧ nextActiveStep steps (some cur) = none) ∨
          ∃ next, outcome = .pending next ∧ nextActiveStep steps (some cur) = some next) := by
  unfold advance at h
  split at h
  · subst h
    rcases hout with hout | ⟨next, hout⟩ <;> cases hout
  · split at h
    · subst h
      rcases hout with hout | ⟨next, hout⟩ <;> cases hout
    · dsimp only at h
      rw [hstep, Option.any_some] at h
      split at h
      · rename_i hsat
        exact Or.inl ⟨h.symm, by simpa using hsat⟩
      · rename_i hsat
        refine Or.inr ⟨by simpa using hsat, ?_⟩
        split at h
        · rename_i hnext
          exact Or.inl ⟨h.symm, hnext⟩
        · rename_i next hnext
          exact Or.inr ⟨next, h.symm, hnext⟩

/-! ## Counting persons -/

theorem distinctApprovers_of_some {ds : List DecisionRow}
    (h : ∀ d ∈ ds, ∃ u, d.approverUserId = some u) :
    ∃ people : List Text, people.Nodup ∧ people.length = distinctApprovers ds ∧
      ∀ p ∈ people, ∃ d ∈ ds, d.approverUserId = some p := by
  refine ⟨distinct (ds.zipIdx.map fun d => d.1.approverUserId.getD (ch '#' :: decimal d.2)),
    distinct_nodup _, rfl, ?_⟩
  intro p hp
  rw [mem_distinct, List.mem_map] at hp
  obtain ⟨d, hd, rfl⟩ := hp
  have hmem : d.1 ∈ ds := by
    have := List.mem_zipIdx hd
    rw [this.2.2]
    exact List.getElem_mem _
  obtain ⟨u, hu⟩ := h d.1 hmem
  exact ⟨d.1, hmem, by rw [hu]; rfl⟩

/-! ## The invariant -/

/-- The call that a row stands for. -/
def Supports (steps : List ApprovalStep) (requester : Option Text) (c : DecideCall)
    (row : DecisionRow) : Prop :=
  ∃ step ∈ steps, step.order = row.step ∧ ∃ me e, me ∈ c.env.candidates ∧
    row.approverUserId = some me.userId ∧
    approverEligibility step me ⟨requester, c.env.entityOwnerUserId, none, c.env.delegations⟩
      c.env.candidates = .ok e ∧ ∃ r ∈ e.rules, row.rule = some r

structure RunInv (steps : List ApprovalStep) (requester : Option Text) (cs : List DecideCall)
    (st : RequestState) : Prop where
  snapshot : st.request.steps = some steps
  requester_eq : st.request.requestedByUserId = requester
  rows : ∀ row ∈ st.decisions, ∃ c ∈ cs, Supports steps requester c row
  current : ∃ step ∈ steps, step.order = st.request.currentStep ∧ step.skipped = none
  earlier : ∀ step ∈ steps, step.skipped = none → step.order < st.request.currentStep →
    stepSatisfied step (onStep st.decisions step.order) = true
  approved : st.request.status = .approved → ∀ step ∈ steps, step.skipped = none →
    stepSatisfied step (onStep st.decisions step.order) = true
  rejected : ∀ row ∈ st.decisions, row.decision = .rejected → st.request.status = .rejected

variable {steps : List ApprovalStep} {requester : Option Text} {cs : List DecideCall}

theorem step_of_order (horders : (steps.map (·.order)).Nodup) {s t : ApprovalStep} (hs : s ∈ steps)
    (ht : t ∈ steps) (h : s.order = t.order) : s = t :=
  List.inj_on_of_nodup_map horders hs ht h

/-- What a run counts, put as persons. -/
theorem satisfiedBy_of_stepSatisfied (horders : (steps.map (·.order)).Nodup) {ds : List DecisionRow}
    (hrows : ∀ row ∈ ds, ∃ c ∈ cs, Supports steps requester c row) {step : ApprovalStep}
    (hstep : step ∈ steps) (h : stepSatisfied step (onStep ds step.order) = true) :
    SatisfiedBy cs requester step ds := by
  -- a counted row makes its person an approver of the step
  have hperson : ∀ (rule : Option Text) (d : DecisionRow), d ∈ onStep ds step.order →
      d.decision = .approved → (∀ r, rule = some r → d.rule = some r) → ∀ p,
      d.approverUserId = some p → ApprovedBy cs requester step ds rule p := by
    intro rule d hd hdec hrule p hp
    obtain ⟨hmem, hon⟩ := List.mem_filter.mp hd
    have hon : d.step = step.order := of_decide_eq_true hon
    obtain ⟨c, hc, s, hs, hso, me, e, hme, hid, helig, r, hr, hdr⟩ := hrows d hmem
    have hss := step_of_order horders hs hstep (hso.trans hon)
    subst hss
    rw [hp, Option.some.injEq] at hid
    subst hid
    exact ⟨(eligible_spec helig).1, d, hmem, hon, hdec, hp, hrule, c, hc, me, e, hme, rfl, helig,
      r, hr, hdr⟩
  have hpeople : ∀ (rule : Option Text) (as : List DecisionRow),
      (∀ d ∈ as, d ∈ onStep ds step.order ∧ d.decision = .approved ∧
        ∀ r, rule = some r → d.rule = some r) → requiredOf step ≤ distinctApprovers as →
      ∃ people : List Text, people.Nodup ∧ requiredOf step ≤ people.length ∧
        ∀ p ∈ people, ApprovedBy cs requester step ds rule p := by
    intro rule as has hreq
    have hsome : ∀ d ∈ as, ∃ u, d.approverUserId = some u := by
      intro d hd
      obtain ⟨c, -, s, -, -, me, e, -, hid, -⟩ := hrows d (List.mem_of_mem_filter (has d hd).1)
      exact ⟨_, hid⟩
    obtain ⟨people, hnd, hlen, hall⟩ := distinctApprovers_of_some hsome
    refine ⟨people, hnd, by rw [hlen]; exact hreq, fun p hp => ?_⟩
    obtain ⟨d, hd, hdp⟩ := hall p hp
    exact hperson rule d (has d hd).1 (has d hd).2.1 (has d hd).2.2 p hdp
  unfold stepSatisfied at h
  unfold SatisfiedBy
  dsimp only at h
  by_cases hall : step.mode = some .all ∧ 1 < (stepRules step).length
  · rw [if_pos hall]
    rw [if_pos (by simpa using hall), List.all_eq_true] at h
    intro rule hrule
    refine hpeople (some rule) _ ?_ (of_decide_eq_true (h rule hrule))
    intro d hd
    rw [List.mem_filter, List.mem_filter, decide_eq_true_eq, decide_eq_true_eq] at hd
    refine ⟨hd.1.1, hd.1.2, fun r hr => ?_⟩
    rw [hd.2, hr]
  · rw [if_neg hall]
    rw [if_neg (by simpa using hall)] at h
    refine hpeople none _ ?_ (of_decide_eq_true h)
    intro d hd
    rw [List.mem_filter, decide_eq_true_eq] at hd
    exact ⟨hd.1, hd.2, nofun⟩

theorem RunInv.open {dueAt : Option ℤ} {st : RequestState}
    (h : openRequest steps requester dueAt = some st) : RunInv steps requester [] st := by
  unfold openRequest at h
  obtain ⟨first, hfirst, rfl⟩ := Option.map_eq_some_iff.mp h
  obtain ⟨⟨s, hs, hskip, -, horder⟩, hmin⟩ := nextActiveStep_eq_some.mp hfirst
  refine ⟨rfl, rfl, fun row hrow => absurd hrow List.not_mem_nil, ⟨s, hs, horder, hskip⟩, ?_, nofun,
    fun row hrow => absurd hrow List.not_mem_nil⟩
  intro step hstep hskip hlt
  have := hmin step hstep hskip nofun
  simp only at hlt
  omega

theorem RunInv.mono {st : RequestState} (h : RunInv steps requester cs st) (c : DecideCall) :
    RunInv steps requester (cs ++ [c]) st :=
  { h with
    rows := fun row hrow => by
      obtain ⟨d, hd, hs⟩ := h.rows row hrow
      exact ⟨d, List.mem_append_left _ hd, hs⟩ }

theorem onStep_append_of_eq {ds : List DecisionRow} {row : DecisionRow} {order : ℤ}
    (h : row.step = order) : onStep (ds ++ [row]) order = onStep ds order ++ [row] := by
  simp [onStep, h]

theorem onStep_append_of_ne {ds : List DecisionRow} {row : DecisionRow} {order : ℤ}
    (h : row.step ≠ order) : onStep (ds ++ [row]) order = onStep ds order := by
  simp [onStep, h]

theorem RunInv.step (horders : (steps.map (·.order)).Nodup) {st st' : RequestState}
    (hinv : RunInv steps requester cs st) {c : DecideCall} (h : st.decide c.env c.input = .ok st') :
    RunInv steps requester (cs ++ [c]) st' := by
  obtain ⟨row, ⟨a⟩, rfl⟩ := decide_eq_ok.1 h
  have hne : steps ≠ [] := by
    obtain ⟨s, hs, -⟩ := hinv.current
    exact List.ne_nil_of_mem hs
  have hsteps : ∀ ws, requestSteps st.request ws = steps := fun ws =>
    requestSteps_snapshot hinv.snapshot hne
  have hcur := a.current
  rw [hsteps] at hcur
  have hrowstep : row.step = st.request.currentStep := congrArg DecisionRow.step a.row_eq
  have hperson : row.approverUserId = some c.input.userId :=
    congrArg DecisionRow.approverUserId a.row_eq
  have hrule := congrArg DecisionRow.rule a.row_eq
  have hstepmem := List.mem_of_find?_eq_some hcur
  have hsteporder : a.step.order = st.request.currentStep := of_decide_eq_true (List.find?_some hcur :)
  obtain ⟨hreq, hsnap⟩ := decideWrite_frame c.env st.request
    (onStep (st.decisions ++ [row]) st.request.currentStep) st.request
  have hcases := decideWrite_cases c.env st.request
    (onStep (st.decisions ++ [row]) st.request.currentStep) st.request (hsteps _)
  have hnew : row ∈ onStep (st.decisions ++ [row]) st.request.currentStep := by
    simp [onStep, hrowstep]
  have hbefore : ∀ step ∈ steps, step.skipped = none → step.order < st.request.currentStep →
      stepSatisfied step (onStep (st.decisions ++ [row]) step.order) = true := by
    intro step hs hskip hlt
    rw [onStep_append_of_ne (by rw [hrowstep]; omega)]
    exact hinv.earlier step hs hskip hlt
  have hthis : ∀ step ∈ steps, step.order = st.request.currentStep → step = a.step :=
    fun step hs ho => step_of_order horders hs hstepmem (ho.trans hsteporder.symm)
  refine ⟨hsnap.trans hinv.snapshot, hreq.trans hinv.requester_eq, ?_, ?_, ?_, ?_, ?_⟩
  · -- the new row stands for this call
    intro d hd
    rcases List.mem_append.mp hd with hd | hd
    · obtain ⟨e, he, hs⟩ := hinv.rows d hd
      exact ⟨e, List.mem_append_left _ he, hs⟩
    · rw [List.mem_singleton] at hd
      subst hd
      refine ⟨c, by simp, a.step, hstepmem, hsteporder.trans hrowstep.symm, a.me, a.elig,
        List.mem_of_find?_eq_some a.member, ?_, ?_, ?_⟩
      · rw [hperson, of_decide_eq_true (List.find?_some a.member :)]
      · have := a.eligible
        unfold eligibilityContext at this
        rwa [hinv.requester_eq] at this
      · have hrules := (eligible_spec a.eligible).2.2.1
        cases hfind : a.elig.rules.find? (openRules a.step
            (onStep st.decisions st.request.currentStep)).contains with
        | some r =>
          rw [hfind] at hrule
          exact ⟨r, List.mem_of_find?_eq_some hfind, hrule⟩
        | none =>
          rw [hfind] at hrule
          obtain ⟨r, rs, hr⟩ := List.exists_cons_of_ne_nil hrules
          exact ⟨r, by simp [hr], by simpa [hr] using hrule⟩
  · -- the current step
    rcases hcases with ⟨-, -, hc⟩ | ⟨-, -, hc⟩ | ⟨-, -, hc⟩ | ⟨next, hadv, -, hc⟩
    · simpa only [hc] using hinv.current
    · simpa only [hc] using hinv.current
    · simpa only [hc] using hinv.current
    · simp only [hc]
      rcases advance_moves hcur hadv (Or.inr ⟨next, rfl⟩) with ⟨hsame, -⟩ | ⟨-, hmove⟩
      · rw [RequestOutcome.pending.injEq] at hsame
        rw [hsame]
        exact hinv.current
      · rcases hmove with ⟨hout, -⟩ | ⟨next', hout, hnext⟩
        · cases hout
        · rw [RequestOutcome.pending.injEq] at hout
          subst hout
          obtain ⟨⟨s, hs, hskip, -, ho⟩, -⟩ := nextActiveStep_eq_some.mp hnext
          exact ⟨s, hs, ho, hskip⟩
  · -- the steps before it
    rcases hcases with ⟨-, -, hc⟩ | ⟨-, -, hc⟩ | ⟨-, -, hc⟩ | ⟨next, hadv, -, hc⟩
    · simpa only [hc] using hbefore
    · simpa only [hc] using hbefore
    · simpa only [hc] using hbefore
    · simp only [hc]
      rcases advance_moves hcur hadv (Or.inr ⟨next, rfl⟩) with ⟨hsame, -⟩ | ⟨hsat, hmove⟩
      · rw [RequestOutcome.pending.injEq] at hsame
        rw [hsame]
        exact hbefore
      · rcases hmove with ⟨hout, -⟩ | ⟨next', hout, hnext⟩
        · cases hout
        · rw [RequestOutcome.pending.injEq] at hout
          subst hout
          intro step hs hskip hlt
          rcases lt_trichotomy step.order st.request.currentStep with ho | ho | ho
          · exact hbefore step hs hskip ho
          · rw [hthis step hs ho, hsteporder]
            exact hsat
          · -- between the two there is no step that counts
            have := (nextActiveStep_eq_some.mp hnext).2 step hs hskip (by
              intro x hx
              rw [Option.some.injEq] at hx
              omega)
            omega
  · -- approval
    intro hst step hs hskip
    rcases hcases with ⟨-, hstatus, -⟩ | ⟨-, hstatus, -⟩ | ⟨hadv, -, -⟩ | ⟨next, -, hstatus, -⟩
    · rw [hstatus] at hst; cases hst
    · rw [hstatus] at hst; cases hst
    · rcases advance_moves hcur hadv (Or.inl rfl) with ⟨hsame, -⟩ | ⟨hsat, hmove⟩
      · cases hsame
      · rcases hmove with ⟨-, hnext⟩ | ⟨next', hout, -⟩
        · obtain ⟨x, hx, hle⟩ := nextActiveStep_eq_none.mp hnext step hs hskip
          rw [Option.some.injEq] at hx
          subst hx
          rcases lt_or_eq_of_le hle with ho | ho
          · exact hbefore step hs hskip ho
          · rw [hthis step hs ho, hsteporder]
            exact hsat
        · cases hout
    · rw [hstatus, a.pending] at hst; cases hst
  · -- rejection
    intro d hd hrej
    rcases List.mem_append.mp hd with hd | hd
    · have := hinv.rejected d hd hrej
      rw [a.pending] at this
      cases this
    · rw [List.mem_singleton] at hd
      subst hd
      have hadv : advance steps st.request.currentStep
          (onStep (st.decisions ++ [d]) st.request.currentStep) = .rejected :=
        advance_rejected_iff.2 ⟨d, hnew, hrej⟩
      rcases hcases with ⟨-, hstatus, -⟩ | ⟨h', -⟩ | ⟨h', -⟩ | ⟨next, h', -⟩
      · exact hstatus
      · rw [hadv] at h'; cases h'
      · rw [hadv] at h'; cases h'
      · rw [hadv] at h'; cases h'

/-! ## Runs -/

theorem RunInv.call (horders : (steps.map (·.order)).Nodup) {st : RequestState}
    (hinv : RunInv steps requester cs st) (c : DecideCall) :
    RunInv steps requester (cs ++ [c]) (st.call c) := by
  unfold RequestState.call
  split
  · rename_i st' hst
    exact hinv.step horders hst
  · exact hinv.mono c

theorem RunInv.calls (horders : (steps.map (·.order)).Nodup) {st : RequestState}
    (hinv : RunInv steps requester cs st) (more : List DecideCall) :
    RunInv steps requester (cs ++ more) (st.calls more) := by
  induction more generalizing cs st with
  | nil =>
    rw [List.append_nil]
    exact hinv
  | cons c more ih =>
    have h := ih (hinv.call horders c)
    rwa [List.append_assoc] at h

/-- A request that is no longer pending stays as it is. -/
theorem calls_of_not_pending {st : RequestState} (h : st.request.status ≠ .pending)
    (more : List DecideCall) : st.calls more = st := by
  have hcall : ∀ c, st.call c = st := by
    intro c
    unfold RequestState.call
    split
    · rename_i st' hst
      obtain ⟨row, ⟨a⟩, -⟩ := decide_eq_ok.1 hst
      exact absurd a.pending h
    · rfl
  induction more with
  | nil => rfl
  | cons c more ih =>
    change (st.call c).calls more = st
    rw [hcall c, ih]

/-- A step with one rule. -/
def plainStep (order : ℤ) (rule : Text) : ApprovalStep where
  order := order
  approverRule := rule
  approvers := none
  mode := none
  minApprovers := none
  slaDays := none
  skipIf := none
  onlyIf := none
  everyone := false
  signature := false
  expandedFrom := none
  given := none
  skipped := none

/-- A member without functions. -/
def plainMember (userId : Text) : ApproverCandidate where
  userId := userId
  orgRole := js "editor"
  functions := []
  holderFunctions := none
  customRoleIds := none
  canDecide := none

/-- A member with this name decides in an organisation of `a` and `r`. -/
def plainCall (userId : Text) (decision : DecisionKind) : DecideCall where
  env :=
    { workflowSteps := some []
      candidates := [plainMember (js "a"), plainMember (js "r")]
      delegations := []
      entityOwnerUserId := none
      now := 0 }
  input := ⟨userId, decision, false⟩

end Klick
