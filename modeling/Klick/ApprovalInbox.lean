-- Whether the inbox and the approval bar agree with `decide`: who is shown as
-- able to decide now, and whose approval is accepted.
import Klick.ApprovalRaces
import Klick.ApprovalSeats

open Js

namespace Klick

/-- `canDecideNow` -/
def canDecideNow (step : ApprovalStep) (candidate : ApproverCandidate) (ctx : EligibilityContext)
    (members : List ApproverCandidate) (decisionsOnStep : List DecisionRow) : Bool :=
  match approverEligibility step candidate ctx members with
  | .error _ => false
  | .ok e =>
    if decisionsOnStep.any fun d => d.approverUserId = some candidate.userId then false
    else if step.mode = some .all && 1 < (stepRules step).length then
      e.rules.any (openRules step decisionsOnStep).contains
    else true

/-- `eligible` of a row of the inbox, and of the approval bar. -/
def inboxEligible (env : DecideEnv) (userId : Text) (st : RequestState) : Bool :=
  st.request.status = .pending &&
    match env.workflowSteps with
    | none => false
    | some workflowSteps =>
      match (requestSteps st.request workflowSteps).find? fun s => s.order = st.request.currentStep,
          env.candidates.find? fun c => c.userId = userId with
      | some step, some me =>
        canDecideNow step me (eligibilityContext env st.request) env.candidates
          (onStep st.decisions st.request.currentStep)
      | _, _ => false

/-- The current step of a request. -/
def Current (env : DecideEnv) (st : RequestState) (step : ApprovalStep) : Prop :=
  ∃ workflowSteps, env.workflowSteps = some workflowSteps ∧
    (requestSteps st.request workflowSteps).find? (fun s => s.order = st.request.currentStep) =
      some step

/-- An open request on a step of the mode `all` whose only rule already has its approvals. -/
def Filled (env : DecideEnv) (st : RequestState) : Prop :=
  st.request.status = .pending ∧ ∃ step, Current env st step ∧ step.mode = some .all ∧
    (stepRules step).length ≤ 1 ∧ openRules step (onStep st.decisions st.request.currentStep) = []

/-- A call that approves, with a signature where the step asks for one, is accepted. -/
def ApprovalAccepted (env : DecideEnv) (userId : Text) (signed : Bool) (st : RequestState) : Prop :=
  ∃ st', st.decide env ⟨userId, .approved, signed⟩ = .ok st'

/-! ## One state -/

theorem stepRules_length (step : ApprovalStep) : 1 ≤ (stepRules step).length := by
  unfold stepRules
  split <;> simp

/-- Where a step has one rule, what a person can meet is open as soon as anything is. -/
theorem open_of_single {step : ApprovalStep} {before : List DecisionRow} {rules : List Text}
    (hone : (stepRules step).length ≤ 1) (hne : rules ≠ []) (hsub : ∀ r ∈ rules, r ∈ stepRules step) :
    (∃ r ∈ rules, r ∈ openRules step before) ↔ openRules step before ≠ [] := by
  constructor
  · rintro ⟨r, -, hr⟩
    exact List.ne_nil_of_mem hr
  · intro hopen
    have hlen := stepRules_length step
    obtain ⟨rule, hrule⟩ := List.length_eq_one_iff.mp (le_antisymm hone hlen)
    obtain ⟨o, os, ho⟩ := List.exists_cons_of_ne_nil hopen
    obtain ⟨r, rs, hr⟩ := List.exists_cons_of_ne_nil hne
    have hor : o = rule := by
      have hmem : o ∈ openRules step before := by simp [ho]
      unfold openRules at hmem
      split at hmem
      · cases hmem
      · have hin := List.mem_of_mem_filter hmem
        rw [hrule] at hin
        exact List.mem_singleton.mp hin
    have hrr : r = rule := by
      have hin := hsub r (by simp [hr])
      rw [hrule] at hin
      exact List.mem_singleton.mp hin
    refine ⟨r, by simp [hr], ?_⟩
    rw [ho, hrr, hor]
    exact List.mem_cons_self

/-- What a yes of the inbox tells. -/
theorem inboxEligible_iff {env : DecideEnv} {userId : Text} {st : RequestState} :
    inboxEligible env userId st = true ↔ st.request.status = .pending ∧ ∃ step, Current env st step ∧
      ∃ me, env.candidates.find? (fun c => c.userId = userId) = some me ∧ ∃ elig,
        approverEligibility step me (eligibilityContext env st.request) env.candidates = .ok elig ∧
        (∀ d ∈ onStep st.decisions st.request.currentStep, d.approverUserId ≠ some userId) ∧
        (step.mode = some .all → 1 < (stepRules step).length → ∃ r ∈ elig.rules,
          r ∈ openRules step (onStep st.decisions st.request.currentStep)) := by
  unfold inboxEligible Current
  rw [Bool.and_eq_true, decide_eq_true_eq]
  refine and_congr_right fun _ => ?_
  cases hws : env.workflowSteps with
  | none => simp
  | some ws =>
    dsimp only
    cases hstep : (requestSteps st.request ws).find? fun s => s.order = st.request.currentStep with
    | none => simp [hstep]
    | some step =>
      cases hme : env.candidates.find? fun c => c.userId = userId with
      | none => simp
      | some me =>
        have hid : me.userId = userId := of_decide_eq_true (List.find?_some hme :)
        dsimp only
        unfold canDecideNow
        cases helig : approverEligibility step me (eligibilityContext env st.request)
            env.candidates with
        | error e => simp [hstep, helig]
        | ok elig =>
          dsimp only
          rw [hid]
          by_cases honce : ((onStep st.decisions st.request.currentStep).any
              fun d => d.approverUserId = some userId) = true
          · rw [if_pos honce]
            simp only [List.any_eq_true, decide_eq_true_eq] at honce
            obtain ⟨d, hd, hdu⟩ := honce
            refine iff_of_false nofun ?_
            rintro ⟨s, -, m, -, e, -, h, -⟩
            exact h d hd hdu
          · rw [if_neg honce]
            simp only [List.any_eq_true, decide_eq_true_eq, not_exists, not_and] at honce
            have hrest : (∃ s, (∃ w, some ws = some w ∧ (requestSteps st.request w).find?
                  (fun s => s.order = st.request.currentStep) = some s) ∧
                ∃ m, some me = some m ∧ ∃ e, approverEligibility s m
                  (eligibilityContext env st.request) env.candidates = .ok e ∧
                  (∀ d ∈ onStep st.decisions st.request.currentStep,
                    d.approverUserId ≠ some userId) ∧
                  (s.mode = some .all → 1 < (stepRules s).length → ∃ r ∈ e.rules,
                    r ∈ openRules s (onStep st.decisions st.request.currentStep))) ↔
                (step.mode = some .all → 1 < (stepRules step).length → ∃ r ∈ elig.rules,
                  r ∈ openRules step (onStep st.decisions st.request.currentStep)) := by
              constructor
              · rintro ⟨s, ⟨w, hw, hs⟩, m, hm, e, he, -, h⟩
                cases hw
                cases hm
                rw [hstep] at hs
                cases hs
                rw [helig] at he
                cases he
                exact h
              · intro h
                exact ⟨step, ⟨ws, rfl, hstep⟩, me, rfl, elig, helig, honce, h⟩
            rw [hrest]
            by_cases hall : (step.mode = some .all && 1 < (stepRules step).length) = true
            · rw [if_pos hall]
              simp only [Bool.and_eq_true, decide_eq_true_eq] at hall
              simp [hall.1, hall.2]
            · rw [if_neg hall]
              simp only [Bool.and_eq_true, decide_eq_true_eq, not_and] at hall
              refine iff_of_true rfl fun h1 h2 => absurd h2 (hall h1)

theorem approvalAccepted_iff {env : DecideEnv} {userId : Text} {signed : Bool} {st : RequestState}
    (hsigned : ∀ step, Current env st step → step.signature = true → signed = true) :
    ApprovalAccepted env userId signed st ↔
      inboxEligible env userId st = true ∧ ¬ Filled env st := by
  unfold ApprovalAccepted
  rw [inboxEligible_iff]
  constructor
  · rintro ⟨st', h⟩
    obtain ⟨row, ⟨a⟩, -⟩ := decide_eq_ok.mp h
    refine ⟨⟨a.pending, a.step, ⟨_, a.workflow, a.current⟩, a.me, a.member, a.elig, a.eligible,
      a.once, fun hall _ => a.isOpen hall⟩, ?_⟩
    rintro ⟨-, step, ⟨ws, hws, hstep⟩, hall, -, hnone⟩
    rw [a.workflow] at hws
    cases hws
    rw [a.current] at hstep
    cases hstep
    obtain ⟨r, -, hr⟩ := a.isOpen hall
    rw [hnone] at hr
    cases hr
  · rintro ⟨⟨hpending, step, hcur, me, hme, elig, helig, honce, hopen⟩, hfilled⟩
    obtain ⟨ws, hws, hstep⟩ := hcur
    have hall : step.mode = some .all → ∃ r ∈ elig.rules,
        r ∈ openRules step (onStep st.decisions st.request.currentStep) := by
      intro hmode
      by_cases hmany : 1 < (stepRules step).length
      · exact hopen hmode hmany
      · obtain ⟨-, -, hne, hsub⟩ := eligible_spec helig
        rw [open_of_single (not_lt.mp hmany) hne hsub]
        intro hnone
        exact hfilled ⟨hpending, step, ⟨ws, hws, hstep⟩, hmode, not_lt.mp hmany, hnone⟩
    have hrow : Nonempty (Acceptance env ⟨userId, .approved, signed⟩ st.request
        (onStep st.decisions st.request.currentStep) _) :=
      ⟨⟨hpending, ws, hws, step, hstep, me, hme, elig, helig,
        fun h _ => hsigned step ⟨ws, hws, hstep⟩ h, honce, hall, rfl⟩⟩
    exact ⟨_, decide_eq_ok.mpr ⟨_, hrow, rfl⟩⟩

/-! ## Runs -/

/-- Each person has decided at most once on each step. -/
structure OnceEach (st : RequestState) : Prop where
  persons : ∀ d ∈ st.decisions, d.approverUserId.isSome ∧ d.rule.isSome
  once : (st.decisions.map fun d => (d.step, d.approverUserId)).Nodup

theorem OnceEach.call {st : RequestState} (h : OnceEach st) (c : DecideCall) :
    OnceEach (st.call c) := by
  unfold RequestState.call
  split
  · rename_i st' hst
    obtain ⟨row, ⟨a⟩, rfl⟩ := decide_eq_ok.mp hst
    have hrowstep : row.step = st.request.currentStep := congrArg DecisionRow.step a.row_eq
    have hperson : row.approverUserId = some c.input.userId :=
      congrArg DecisionRow.approverUserId a.row_eq
    have hrule : row.rule.isSome := by
      rw [congrArg DecisionRow.rule a.row_eq]
      obtain ⟨r, rs, hr⟩ := List.exists_cons_of_ne_nil (eligible_spec a.eligible).2.2.1
      cases hf : a.elig.rules.find? (openRules a.step
          (onStep st.decisions st.request.currentStep)).contains with
      | none => simp [hr]
      | some r => rfl
    constructor
    · intro d hd
      rcases List.mem_append.mp hd with hd | hd
      · exact h.persons d hd
      · rw [List.mem_singleton.mp hd]
        exact ⟨by rw [hperson]; rfl, hrule⟩
    · dsimp only
      rw [List.map_append]
      refine List.Nodup.append h.once (List.nodup_singleton _) ?_
      intro p hp hnew
      obtain ⟨d, hd, rfl⟩ := List.mem_map.mp hp
      have hsame := List.mem_singleton.mp hnew
      rw [Prod.mk.injEq, hrowstep, hperson] at hsame
      refine a.once d ?_ hsame.2
      exact List.mem_filter.mpr ⟨hd, by simpa using hsame.1⟩
  · exact h

theorem OnceEach.calls {st : RequestState} (h : OnceEach st) (cs : List DecideCall) :
    OnceEach (st.calls cs) := by
  induction cs generalizing st with
  | nil => exact h
  | cons c cs ih => exact ih (h.call c)

/-- Approvals of different persons count each for one. -/
theorem distinctApprovers_of_once {st : RequestState} (h : OnceEach st) (step : ℤ) :
    distinctApprovers ((onStep st.decisions step).filter fun d => d.decision = .approved) =
      ((onStep st.decisions step).filter fun d => d.decision = .approved).length := by
  have hmem : ∀ d ∈ (onStep st.decisions step).filter (fun d => d.decision = .approved),
      d ∈ st.decisions ∧ d.step = step ∧ d.decision = .approved := by
    intro d hd
    obtain ⟨hd, hdec⟩ := List.mem_filter.mp hd
    obtain ⟨hd, hstep⟩ := List.mem_filter.mp hd
    exact ⟨hd, of_decide_eq_true hstep, of_decide_eq_true hdec⟩
  apply distinctApprovers_eq
  · intro d hd
    obtain ⟨hd, -, hdec⟩ := hmem d hd
    exact ⟨hdec, h.persons d hd⟩
  · have hsub : ((onStep st.decisions step).filter fun d => d.decision = .approved).Sublist
        st.decisions := List.filter_sublist.trans List.filter_sublist
    have hnd := h.once.sublist (hsub.map fun d => (d.step, d.approverUserId))
    refine List.Nodup.map_on (fun d hd e he heq => ?_) (List.Nodup.of_map _ hnd)
    refine List.inj_on_of_nodup_map hnd hd he ?_
    obtain ⟨hdm, hds, -⟩ := hmem d hd
    obtain ⟨hem, hes, -⟩ := hmem e he
    obtain ⟨u, hu⟩ := Option.isSome_iff_exists.mp (h.persons d hdm).1
    obtain ⟨v, hv⟩ := Option.isSome_iff_exists.mp (h.persons e hem).1
    rw [hu, hv] at heq ⊢
    rw [hds, hes, show u = v from heq]

/-- One call after the other never leaves a step open that has its approvals. -/
theorem not_filled {steps : List ApprovalStep} {requester : Option Text} {dueAt : Option ℤ}
    {st₀ : RequestState} (hrequired : ∀ s ∈ steps, 1 ≤ requiredOf s)
    (hopen : openRequest steps requester dueAt = some st₀) (cs : List DecideCall) (env : DecideEnv) :
    ¬ Filled env (st₀.calls cs) := by
  rintro ⟨hpending, step, ⟨ws, -, hstep⟩, hall, hone, hnone⟩
  have hwaiting := (Waiting.open hopen).calls cs
  rw [requestSteps_snapshot hwaiting.snapshot hwaiting.nonempty] at hstep
  have honce : OnceEach (st₀.calls cs) := by
    apply OnceEach.calls
    unfold openRequest at hopen
    obtain ⟨first, -, rfl⟩ := Option.map_eq_some_iff.mp hopen
    exact ⟨fun d hd => absurd hd List.not_mem_nil, List.nodup_nil⟩
  have hreq := hrequired step (List.mem_of_find?_eq_some hstep)
  have hlen := stepRules_length step
  obtain ⟨rule, hrule⟩ := List.length_eq_one_iff.mp (le_antisymm hone hlen)
  unfold openRules at hnone
  rw [if_neg (not_not_intro hall), hrule, List.filter_eq_nil_iff] at hnone
  have hcount := hnone rule List.mem_cons_self
  simp only [decide_eq_true_eq, not_lt] at hcount
  rcases hwaiting.waits hpending step hstep with hempty | hshort
  · rw [hempty] at hcount
    simp at hcount
    omega
  · -- enough approvals stand for the rule, so enough persons have approved the step
    unfold stepSatisfied at hshort
    dsimp only at hshort
    rw [if_neg (by simp [hrule]), distinctApprovers_of_once honce] at hshort
    have hle : ((onStep (st₀.calls cs).decisions (st₀.calls cs).request.currentStep).filter
        fun d => d.decision = .approved && d.rule = some rule).length ≤
        ((onStep (st₀.calls cs).decisions (st₀.calls cs).request.currentStep).filter
          fun d => d.decision = .approved).length := by
      apply List.Sublist.length_le
      apply List.monotone_filter_right
      intro d hd
      simp only [Bool.and_eq_true] at hd
      exact hd.1
    have := of_decide_eq_false hshort
    omega

/-- An open request whose step asks for a signature, and what its approver finds. -/
def signatureState : RequestState :=
  ⟨⟨some (js "r"), 1, .pending, none, some [{ plainStep 1 (js "user:a") with signature := true }]⟩, []⟩

end Klick
