-- The rules of approvals (`lib/approvals/rules.ts`) and the decision on a
-- request (`decide` in `lib/approvals/service.ts`). Messages, notes and audit
-- entries are left out.
import Klick.Coercion
import Klick.Distinct

open Js

namespace Klick

/-! ## Steps, persons and decisions -/

inductive StepMode
  | any | all
deriving DecidableEq, Repr

/-- Why a step is left out of a request. -/
inductive Skip
  | requester (rule : Text)
  | condition
  | vacant
deriving DecidableEq

inductive ConditionOp
  | eq | neq | isIn | gte | lte | isTrue | isFalse
deriving DecidableEq

inductive ConditionValue
  | text (t : Text)
  | number (n : Number)
  | texts (ts : List Text)
deriving DecidableEq

structure ApprovalCondition where
  field : Text
  op : ConditionOp
  value : Option ConditionValue
deriving DecidableEq

structure ApprovalStep where
  order : ℤ
  approverRule : Text
  approvers : Option (List Text)
  mode : Option StepMode
  minApprovers : Option ℤ
  slaDays : Option ℤ
  skipIf : Option (List Text)
  onlyIf : Option (List ApprovalCondition)
  everyone : Bool
  signature : Bool
  expandedFrom : Option (List Text)
  given : Option (List Text)
  skipped : Option Skip
deriving DecidableEq

structure ApproverCandidate where
  userId : Text
  orgRole : Text
  functions : List Text
  holderFunctions : Option (List Text)
  customRoleIds : Option (List Text)
  canDecide : Option Bool
deriving DecidableEq

structure Delegation where
  fromUserId : Text
  toUserId : Text
deriving DecidableEq

structure EligibilityContext where
  requesterUserId : Option Text
  entityOwnerUserId : Option Text
  entityApproverFunction : Option Text
  delegations : List Delegation

inductive DecisionKind
  | approved | rejected | changesRequested
deriving DecidableEq, Repr

/-- A row of `approval_decisions`. -/
structure DecisionRow where
  step : ℤ
  approverUserId : Option Text
  rule : Option Text
  decision : DecisionKind
deriving DecidableEq

/-! ## Rules -/

/-- `stepRules` -/
def stepRules (step : ApprovalStep) : List Text :=
  match step.approvers with
  | some (r :: rs) => r :: rs
  | _ => [step.approverRule]

/-- `parseRule` -/
def parseRule (rule : Text) : Text × Text :=
  match rule.idxOf? (ch ':') with
  | none => (rule, [])
  | some i => (rule.take i, rule.drop (i + 1))

/-- A text that is there and not empty. -/
def told (t : Option Text) : Option Text := t.filter (· ≠ [])

/-- `matchesRule` -/
def matchesRule (rule : Text) (candidate : ApproverCandidate) (ctx : EligibilityContext) : Bool :=
  let (kind, value) := parseRule rule
  if kind = js "function" then candidate.functions.contains value
  else if kind = js "role" then
    candidate.orgRole = value || (value = js "editor" && candidate.orgRole = js "owner") ||
      (candidate.customRoleIds.getD []).contains value
  else if kind = js "user" then candidate.userId = value
  else if kind = js "owner_of_entity" then told ctx.entityOwnerUserId = some candidate.userId
  else if kind = js "approver_of_entity" then
    match told ctx.entityApproverFunction with
    | none => false
    | some f => candidate.functions.contains f
  else if kind = js "not_requester" then some candidate.userId ≠ ctx.requesterUserId
  else false

inductive Ineligible
  | fourEyes | ruleNotMet
deriving DecidableEq, Repr

/-- An eligible person: on whose behalf, and the rules of the step that she can meet. -/
structure Eligible where
  onBehalfOf : Option Text
  rules : List Text
deriving DecidableEq

/-- The rules that the person behind a delegation meets. -/
def principalRules (rules : List Text) (fromUserId : Text) (ctx : EligibilityContext)
    (allMembers : List ApproverCandidate) : List Text :=
  match allMembers.find? fun m => m.userId = fromUserId with
  | none => []
  | some principal => rules.filter fun r => matchesRule r principal ctx

/-- The first delegation to a person through which she meets a rule. -/
def delegatedRules (rules : List Text) (candidate : ApproverCandidate) (ctx : EligibilityContext)
    (allMembers : List ApproverCandidate) : List Delegation → Option Eligible
  | [] => none
  | d :: ds =>
    if d.toUserId ≠ candidate.userId || some d.fromUserId = ctx.requesterUserId then
      delegatedRules rules candidate ctx allMembers ds
    else
      let via := principalRules rules d.fromUserId ctx allMembers
      if via ≠ [] then some ⟨some d.fromUserId, via⟩
      else delegatedRules rules candidate ctx allMembers ds

/-- `approverEligibility` -/
def approverEligibility (step : ApprovalStep) (candidate : ApproverCandidate)
    (ctx : EligibilityContext) (allMembers : List ApproverCandidate) : Except Ineligible Eligible :=
  if told ctx.requesterUserId = some candidate.userId then .error .fourEyes
  else if candidate.canDecide = some false then .error .ruleNotMet
  else
    let rules := stepRules step
    let direct := rules.filter fun r => matchesRule r candidate ctx
    if direct ≠ [] then .ok ⟨none, direct⟩
    else match delegatedRules rules candidate ctx allMembers ctx.delegations with
      | some e => .ok e
      | none => .error .ruleNotMet

/-- `eligibleApprovers` -/
def eligibleApprovers (step : ApprovalStep) (members : List ApproverCandidate)
    (ctx : EligibilityContext) : List ApproverCandidate :=
  members.filter fun m => (approverEligibility step m ctx members).isOk

/-! ## The course of the steps -/

/-- `nextActiveStep`: the lowest order above `after` of a step that is not left out. -/
def nextActiveStep (steps : List ApprovalStep) (after : Option ℤ) : Option ℤ :=
  ((steps.filter fun s => s.skipped.isNone && after.all (· < s.order)).map (·.order)).min?

/-- `firstActiveStep` -/
def firstActiveStep (steps : List ApprovalStep) : Option ℤ := nextActiveStep steps none

/-- `step.minApprovers ?? 1` -/
def requiredOf (step : ApprovalStep) : ℤ := step.minApprovers.getD 1

/-- How many persons decided; rows without a person count each for one. -/
def distinctApprovers (ds : List DecisionRow) : ℕ :=
  (distinct (ds.zipIdx.map fun d => d.1.approverUserId.getD (ch '#' :: decimal d.2))).length

/-- `stepSatisfied` -/
def stepSatisfied (step : ApprovalStep) (ds : List DecisionRow) : Bool :=
  let approvals := ds.filter fun d => d.decision = .approved
  if step.mode = some .all && 1 < (stepRules step).length then
    (stepRules step).all fun rule =>
      requiredOf step ≤ distinctApprovers (approvals.filter fun d => d.rule = some rule)
  else requiredOf step ≤ distinctApprovers approvals

/-- `openRules` -/
def openRules (step : ApprovalStep) (ds : List DecisionRow) : List Text :=
  if step.mode ≠ some .all then []
  else (stepRules step).filter fun rule =>
    ((ds.filter fun d => d.decision = .approved && d.rule = some rule).length : ℤ) < requiredOf step

inductive RequestOutcome
  | pending (nextStep : ℤ)
  | approved | rejected | changesRequested
deriving DecidableEq

/-- `advance` -/
def advance (steps : List ApprovalStep) (currentStep : ℤ) (ds : List DecisionRow) :
    RequestOutcome :=
  if ds.any fun d => d.decision = .rejected then .rejected
  else if ds.any fun d => d.decision = .changesRequested then .changesRequested
  else
    let step := steps.find? fun s => s.order = currentStep
    if step.any fun s => !stepSatisfied s ds then .pending currentStep
    else match nextActiveStep steps (some currentStep) with
      | none => .approved
      | some next => .pending next

/-- `slaDueAt` -/
def slaDueAt (step : ApprovalStep) (start : ℤ) : Option ℤ :=
  match step.slaDays with
  | none => none
  | some days => if days ≤ 0 then none else some (start + days * 86400000)

/-! ## Requests -/

inductive RequestStatus
  | pending | approved | rejected | changesRequested
deriving DecidableEq, Repr

/-- A row of `approval_requests`. -/
structure ApprovalRequest where
  requestedByUserId : Option Text
  currentStep : ℤ
  status : RequestStatus
  dueAt : Option ℤ
  /-- The snapshot of the steps. -/
  steps : Option (List ApprovalStep)
deriving DecidableEq

/-- `requestSteps` -/
def requestSteps (req : ApprovalRequest) (workflowSteps : List ApprovalStep) : List ApprovalStep :=
  match req.steps with
  | some (s :: ss) => s :: ss
  | _ => workflowSteps

/-- What `decide` reads besides the request and its decisions. -/
structure DecideEnv where
  /-- The steps of the workflow, if it is there. -/
  workflowSteps : Option (List ApprovalStep)
  candidates : List ApproverCandidate
  delegations : List Delegation
  entityOwnerUserId : Option Text
  now : ℤ

structure DecideInput where
  userId : Text
  decision : DecisionKind
  signed : Bool

inductive DecideError
  | notFound | notPending | fourEyes | ruleNotMet | alreadyDecided | signatureRequired
deriving DecidableEq, Repr

def Ineligible.error : Ineligible → DecideError
  | fourEyes => .fourEyes
  | ruleNotMet => .ruleNotMet

def eligibilityContext (env : DecideEnv) (req : ApprovalRequest) : EligibilityContext where
  requesterUserId := req.requestedByUserId
  entityOwnerUserId := env.entityOwnerUserId
  entityApproverFunction := none
  delegations := env.delegations

/-- The decisions on a step. -/
def onStep (ds : List DecisionRow) (step : ℤ) : List DecisionRow := ds.filter fun d => d.step = step

/-- The first part of `decide`, from the request to the row that it inserts. `before` holds
the decisions on the current step. -/
def decideCheck (env : DecideEnv) (input : DecideInput) (req : ApprovalRequest)
    (before : List DecisionRow) : Except DecideError DecisionRow :=
  if req.status ≠ .pending then .error .notPending
  else match env.workflowSteps with
  | none => .error .notFound
  | some workflowSteps =>
  match (requestSteps req workflowSteps).find? fun s => s.order = req.currentStep with
  | none => .error .notFound
  | some step =>
  match env.candidates.find? fun c => c.userId = input.userId with
  | none => .error .ruleNotMet
  | some me =>
  match approverEligibility step me (eligibilityContext env req) env.candidates with
  | .error e => .error e.error
  | .ok elig =>
    if step.signature && input.decision = .approved && !input.signed then
      .error .signatureRequired
    else if before.any fun d => d.approverUserId = some input.userId then .error .alreadyDecided
    else
      let isOpen := openRules step before
      if step.mode = some .all && !elig.rules.any isOpen.contains then .error .alreadyDecided
      else
        .ok { step := req.currentStep
              approverUserId := some input.userId
              rule := (elig.rules.find? isOpen.contains).orElse fun _ => elig.rules.head?
              decision := input.decision }

/-- The second part of `decide`: what it writes into the row of the request. `req` is the
request as it was read, and `decisionsOnStep` are the decisions on its step after the insert. -/
def decideWrite (env : DecideEnv) (req : ApprovalRequest) (decisionsOnStep : List DecisionRow)
    (row : ApprovalRequest) : ApprovalRequest :=
  let steps := requestSteps req (env.workflowSteps.getD [])
  match advance steps req.currentStep decisionsOnStep with
  | .pending nextStep =>
    { row with
      currentStep := nextStep
      dueAt := if nextStep ≠ req.currentStep then
          ((steps.find? fun s => s.order = nextStep).or
            (steps.find? fun s => s.order = req.currentStep)).bind fun s => slaDueAt s env.now
        else req.dueAt }
  | .approved => { row with status := .approved }
  | .rejected => { row with status := .rejected }
  | .changesRequested => { row with status := .changesRequested }

/-- A request with its decisions. -/
structure RequestState where
  request : ApprovalRequest
  decisions : List DecisionRow

/-- `decide` -/
def RequestState.decide (env : DecideEnv) (input : DecideInput) (st : RequestState) :
    Except DecideError RequestState :=
  match decideCheck env input st.request (onStep st.decisions st.request.currentStep) with
  | .error e => .error e
  | .ok row =>
    let decisions := st.decisions ++ [row]
    .ok { request := decideWrite env st.request (onStep decisions st.request.currentStep) st.request
          decisions := decisions }

/-! ## What the functions say -/

/-- All that an accepted call tells: the step, the person, her eligibility and the row. -/
structure Acceptance (env : DecideEnv) (input : DecideInput) (req : ApprovalRequest)
    (before : List DecisionRow) (row : DecisionRow) where
  pending : req.status = .pending
  workflowSteps : List ApprovalStep
  workflow : env.workflowSteps = some workflowSteps
  step : ApprovalStep
  current : (requestSteps req workflowSteps).find? (fun s => s.order = req.currentStep) = some step
  me : ApproverCandidate
  member : env.candidates.find? (fun c => c.userId = input.userId) = some me
  elig : Eligible
  eligible : approverEligibility step me (eligibilityContext env req) env.candidates = .ok elig
  signed : step.signature = true → input.decision = .approved → input.signed = true
  once : ∀ d ∈ before, d.approverUserId ≠ some input.userId
  isOpen : step.mode = some .all → ∃ r ∈ elig.rules, r ∈ openRules step before
  row_eq : row = { step := req.currentStep
                   approverUserId := some input.userId
                   rule := (elig.rules.find? (openRules step before).contains).orElse
                     fun _ => elig.rules.head?
                   decision := input.decision }

theorem decideCheck_eq_ok {env : DecideEnv} {input : DecideInput} {req : ApprovalRequest}
    {before : List DecisionRow} {row : DecisionRow} :
    decideCheck env input req before = .ok row ↔ Nonempty (Acceptance env input req before row) := by
  constructor
  · intro h
    unfold decideCheck at h
    split at h
    · cases h
    · rename_i hp
      split at h
      · cases h
      · rename_i ws hws
        split at h
        · cases h
        · rename_i step hstep
          split at h
          · cases h
          · rename_i me hme
            split at h
            · cases h
            · rename_i elig helig
              split at h
              · cases h
              · rename_i hsigned
                split at h
                · cases h
                · rename_i honce
                  dsimp only at h
                  split at h
                  · cases h
                  · rename_i hopen
                    refine ⟨⟨by simpa using hp, ws, hws, step, hstep, me, hme, elig, helig, ?_, ?_, ?_,
                      (Except.ok.inj h).symm⟩⟩
                    · intro h1 h2
                      simpa [h1, h2] using hsigned
                    · simpa using honce
                    · intro hall
                      simpa [hall] using hopen
  · rintro ⟨a⟩
    obtain ⟨hp, ws, hws, step, hstep, me, hme, elig, helig, hsigned, honce, hopen, rfl⟩ := a
    unfold decideCheck
    have h1 : ¬ (step.signature && input.decision = .approved && !input.signed) = true := by
      simp only [Bool.and_eq_true, decide_eq_true_eq, Bool.not_eq_true', not_and, Bool.not_eq_false]
      exact fun h => hsigned h.1 h.2
    have h2 : ¬ (before.any fun d => d.approverUserId = some input.userId) = true := by
      simpa using honce
    have h3 : ¬ (step.mode = some .all && !elig.rules.any (openRules step before).contains) = true := by
      simpa using hopen
    simp only [hp, ne_eq, not_true_eq_false, if_false, hws, hstep, hme, helig, if_neg h1, if_neg h2,
      if_neg h3]

theorem mem_principalRules {rules : List Text} {fromUserId : Text} {ctx : EligibilityContext}
    {allMembers : List ApproverCandidate} {r : Text}
    (h : r ∈ principalRules rules fromUserId ctx allMembers) : r ∈ rules := by
  unfold principalRules at h
  split at h
  · cases h
  · exact List.mem_of_mem_filter h

/-- What an eligible person is: neither the requester nor without the right to decide. -/
theorem eligible_spec {step : ApprovalStep} {me : ApproverCandidate} {ctx : EligibilityContext}
    {members : List ApproverCandidate} {e : Eligible}
    (h : approverEligibility step me ctx members = .ok e) :
    told ctx.requesterUserId ≠ some me.userId ∧ me.canDecide ≠ some false ∧ e.rules ≠ [] ∧
      ∀ r ∈ e.rules, r ∈ stepRules step := by
  have hdel : ∀ (ds : List Delegation) (e : Eligible),
      delegatedRules (stepRules step) me ctx members ds = some e →
        e.rules ≠ [] ∧ ∀ r ∈ e.rules, r ∈ stepRules step := by
    intro ds e h
    induction ds with
    | nil => cases h
    | cons d ds ih =>
      unfold delegatedRules at h
      split at h
      · exact ih h
      · dsimp only at h
        split at h
        · rename_i hvia
          rw [Option.some.injEq] at h
          subst h
          exact ⟨hvia, fun r hr => mem_principalRules hr⟩
        · exact ih h
  unfold approverEligibility at h
  split at h
  · cases h
  · rename_i hreq
    split at h
    · cases h
    · rename_i hcan
      refine ⟨hreq, hcan, ?_⟩
      dsimp only at h
      split at h
      · rename_i hdirect
        rw [Except.ok.injEq] at h
        subst h
        exact ⟨hdirect, fun r hr => List.mem_of_mem_filter hr⟩
      · split at h
        · rename_i e' he'
          rw [Except.ok.injEq] at h
          subst h
          exact hdel _ _ he'
        · cases h

theorem nextActiveStep_eq_some {steps : List ApprovalStep} {after : Option ℤ} {next : ℤ} :
    nextActiveStep steps after = some next ↔
      (∃ s ∈ steps, s.skipped = none ∧ (∀ a, after = some a → a < s.order) ∧ s.order = next) ∧
      ∀ s ∈ steps, s.skipped = none → (∀ a, after = some a → a < s.order) → next ≤ s.order := by
  unfold nextActiveStep
  rw [List.min?_eq_some_iff]
  have hmem : ∀ z, z ∈ (steps.filter fun s => s.skipped.isNone && after.all (· < s.order)).map
      (·.order) ↔ ∃ s ∈ steps, s.skipped = none ∧ (∀ a, after = some a → a < s.order) ∧
        s.order = z := by
    simp [Option.all_eq_true, and_assoc]
  constructor
  · rintro ⟨h1, h2⟩
    exact ⟨(hmem next).mp h1, fun s hs h3 h4 => h2 s.order ((hmem _).mpr ⟨s, hs, h3, h4, rfl⟩)⟩
  · rintro ⟨h1, h2⟩
    refine ⟨(hmem next).mpr h1, fun z hz => ?_⟩
    obtain ⟨s, hs, h3, h4, rfl⟩ := (hmem z).mp hz
    exact h2 s hs h3 h4

theorem nextActiveStep_eq_none {steps : List ApprovalStep} {after : Option ℤ} :
    nextActiveStep steps after = none ↔
      ∀ s ∈ steps, s.skipped = none → ∃ a, after = some a ∧ s.order ≤ a := by
  unfold nextActiveStep
  rw [List.min?_eq_none_iff, List.map_eq_nil_iff, List.filter_eq_nil_iff]
  cases after <;> simp

end Klick
