-- The route of a request (`lib/approvals/route.ts`): which steps are left out,
-- whom a step asks, and where nobody could decide.
import Klick.Approvals

open Js

namespace Klick

/-! ## Conditions -/

/-- A value as it stands in JSON. -/
def ConditionValue.toValue : Option ConditionValue → Value
  | none => .undefined
  | some (.text t) => .str t
  | some (.number n) => .num n
  | some (.texts ts) => .arr (ts.map .str)

/-- `v >= Number(c.value)` for a fact that is a number. -/
def factAtLeast (v : Value) (bound : Number) : Bool :=
  match v with
  | .num n => !n.isNaN && !bound.isNaN && !n.lt bound
  | _ => false

/-- `v <= Number(c.value)` -/
def factAtMost (v : Value) (bound : Number) : Bool :=
  match v with
  | .num n => !n.isNaN && !bound.isNaN && !bound.lt n
  | _ => false

/-- `conditionHolds` -/
def conditionHolds (c : ApprovalCondition) (facts : Value) : Except Exn Bool :=
  let v := facts.member c.field
  let isGiven := !v.same .undefined && !v.same .null
  match c.op with
  | .isTrue => .ok (v.same (.bool true))
  | .isFalse => .ok (v.same (.bool false))
  | .eq =>
    if isGiven then do
      return (← v.toText) = (← (ConditionValue.toValue c.value).toText)
    else .ok false
  | .neq =>
    if isGiven then do
      return (← v.toText) ≠ (← (ConditionValue.toValue c.value).toText)
    else .ok false
  | .isIn =>
    match c.value with
    | some (.texts ts) => if isGiven then do return (← v.toText) ∈ ts else .ok false
    | _ => .ok false
  | .gte => do
    let bound ← (ConditionValue.toValue c.value).toNumber
    return factAtLeast v bound
  | .lte => do
    let bound ← (ConditionValue.toValue c.value).toNumber
    return factAtMost v bound

/-- `matchConditions` -/
def matchConditions (conditions : List ApprovalCondition) (facts : Value) : Except Exn Bool :=
  match conditions with
  | [] => .ok true
  | c :: cs => do
    if ← conditionHolds c facts then matchConditions cs facts else return false

/-! ## Planning -/

structure RouteWarning where
  order : ℤ
  /-- The rule that nobody meets, in the mode `all`. -/
  rule : Option Text
deriving DecidableEq

structure PlannedRoute where
  steps : List ApprovalStep
  firstOrder : Option ℤ
  warnings : List RouteWarning
deriving DecidableEq

structure PlanInput where
  requester : Option ApproverCandidate
  facts : Value
  candidates : List ApproverCandidate
  ctx : EligibilityContext
  exclude : List Text

/-- `MANAGEMENT_RULE` -/
def managementRule : Text := js "function:management_body"

/-- `resolveEntityApprover` -/
def resolveEntityApprover (rules : List Text) (fn : Option Text) : List Text :=
  distinct (rules.flatMap fun r =>
    if r = js "approver_of_entity" then
      match told fn with
      | some f => [js "function:" ++ f]
      | none => []
    else [r])

/-- `stepVacant` -/
def stepVacant (rules : List Text) (candidates : List ApproverCandidate) : Bool :=
  rules.all fun r =>
    (parseRule r).1 = js "function" && r ≠ managementRule &&
      !candidates.any fun c => c.functions.contains (parseRule r).2

/-- A member holds a post, without standing in for anyone. -/
def holdsRule (r : Text) (c : ApproverCandidate) (ctx : EligibilityContext) : Bool :=
  let (kind, value) := parseRule r
  if kind = js "function" then (c.holderFunctions.getD c.functions).contains value
  else if kind = js "role" || kind = js "user" then matchesRule r c ctx
  else false

/-- `expandEveryone` -/
def expandEveryone (step : ApprovalStep) (candidates : List ApproverCandidate)
    (ctx : EligibilityContext) (exclude : List Text) : ApprovalStep :=
  let rules := stepRules step
  let people := distinct ((candidates.filter fun c =>
    c.userId ∉ exclude && rules.any fun r => holdsRule r c ctx).map (·.userId))
  if people = [] then step
  else
    let base := { step with
      everyone := true
      expandedFrom := some rules
      given :=
        match told ctx.requesterUserId with
        | some requester => if requester ∈ people then some [requester] else step.given
        | none => step.given }
    let others := (people.filter fun u => some u ≠ ctx.requesterUserId).insertionSort
      fun s t => textLe s t = true
    match others with
    | [] => { base with skipped := some (.requester (rules.headD [])) }
    | u :: us =>
      { base with
        minApprovers := none
        approverRule := js "user:" ++ u
        approvers := some ((u :: us).map fun u => js "user:" ++ u)
        mode := some .all }

/-- One step of the route, once its posts at the entity are resolved. -/
def planStep (step : ApprovalStep) (input : PlanInput) : Except Exn ApprovalStep := do
  if !(← matchConditions (step.onlyIf.getD []) input.facts) then
    return { step with skipped := some .condition }
  let hit := input.requester.bind fun requester =>
    (step.skipIf.getD []).find? fun rule => matchesRule rule requester input.ctx
  match hit with
  | some rule => return { step with skipped := some (.requester rule) }
  | none =>
    if stepVacant (stepRules step) input.candidates then
      return { step with skipped := some .vacant }
    else if step.everyone then
      return expandEveryone step input.candidates input.ctx input.exclude
    else return step

/-- What `planRoute` makes of one step. -/
def planOne (s : ApprovalStep) (input : PlanInput) : Except Exn ApprovalStep :=
  let step := { s with skipped := none, given := none, expandedFrom := none }
  if (stepRules step).contains (js "approver_of_entity") then
    match resolveEntityApprover (stepRules step) input.ctx.entityApproverFunction with
    | [] => .ok { step with skipped := some .vacant }
    | r :: rs => planStep { step with approverRule := r, approvers := some (r :: rs) } input
  else planStep step input

/-- What is missing at a step that is not left out. -/
def routeWarnings (s : ApprovalStep) (input : PlanInput) : List RouteWarning :=
  if s.skipped.isSome then []
  else if s.mode = some .all && 1 < (stepRules s).length then
    (stepRules s).filterMap fun rule =>
      let one := { s with approvers := some [rule], approverRule := rule }
      if eligibleApprovers one input.candidates input.ctx = [] then some ⟨s.order, some rule⟩
      else none
  else if eligibleApprovers s input.candidates input.ctx = [] then [⟨s.order, none⟩]
  else []

/-- `planRoute` -/
def planRoute (steps : List ApprovalStep) (input : PlanInput) : Except Exn PlannedRoute := do
  let planned ← (steps.insertionSort fun a b => a.order ≤ b.order).mapM fun s => planOne s input
  return { steps := planned
           firstOrder := firstActiveStep planned
           warnings := planned.flatMap fun s => routeWarnings s input }

/-! ## What a route keeps -/

theorem planStep_order {step planned : ApprovalStep} {input : PlanInput}
    (h : planStep step input = .ok planned) : planned.order = step.order := by
  unfold planStep at h
  cases hm : matchConditions (step.onlyIf.getD []) input.facts with
  | error e => rw [hm] at h; cases h
  | ok holds =>
    rw [hm] at h
    change (if (!holds) = true then _ else _) = _ at h
    split at h
    · cases h; rfl
    · split at h
      · cases h; rfl
      · split at h
        · cases h; rfl
        · split at h
          · cases h
            unfold expandEveryone
            dsimp only
            split
            · rfl
            · split <;> rfl
          · cases h; rfl

theorem planOne_order {s planned : ApprovalStep} {input : PlanInput}
    (h : planOne s input = .ok planned) : planned.order = s.order := by
  unfold planOne at h
  dsimp only at h
  split at h
  · split at h
    · cases h; rfl
    · have := planStep_order h
      exact this
  · have := planStep_order h
    exact this

/-- A route has the orders of the steps that it was planned from. -/
theorem planRoute_orders {steps : List ApprovalStep} {input : PlanInput} {route : PlannedRoute}
    (h : planRoute steps input = .ok route) :
    (route.steps.map (·.order)).Perm (steps.map (·.order)) := by
  have hmap : ∀ (as planned : List ApprovalStep), as.mapM (fun s => planOne s input) = .ok planned →
      planned.map (·.order) = as.map (·.order) := by
    intro as
    induction as with
    | nil =>
      intro planned hp
      cases hp
      rfl
    | cons a as ih =>
      intro planned hp
      rw [List.mapM_cons] at hp
      cases ha : planOne a input with
      | error e => rw [ha] at hp; cases hp
      | ok b =>
        cases has : as.mapM fun s => planOne s input with
        | error e => rw [ha, has] at hp; cases hp
        | ok bs =>
          rw [ha, has] at hp
          cases hp
          simp only [List.map_cons, planOne_order ha, ih bs has]
  unfold planRoute at h
  cases hp : (steps.insertionSort fun a b => a.order ≤ b.order).mapM fun s => planOne s input with
  | error e => rw [hp] at h; cases h
  | ok planned =>
    rw [hp] at h
    cases h
    rw [hmap _ _ hp]
    exact (List.perm_insertionSort _ _).map _

end Klick
