-- The lockbox: platform access to an organisation, by a grant of that
-- organisation (`lib/platform-access/rules.ts`, `lib/platform-access/service.ts`).
import Klick.Coercion

open Js

namespace Klick.Lockbox

/-! ## Grants -/

inductive PlatformAccessScope
  | view | impersonate | resetAccess
deriving DecidableEq, Repr

inductive PlatformAccessStatus
  | requested | waiting | approved | denied | cancelled | revoked | emergency
deriving DecidableEq, Repr

inductive PlatformEmergencyCategory
  | securityIncident | legalOrder
deriving DecidableEq, Repr

def minute : ℤ := 60000

def hour : ℤ := 60 * minute

def minDurationMin : ℤ := 15

def maxDurationMin : ℤ := 24 * 60

def emergencyMaxMin : ℤ := 4 * 60

def waitMs : ℤ := 24 * hour

def reportDueMs : ℤ := 24 * hour

def requestTtlMs : ℤ := 7 * 24 * hour

/-- `SCOPE_NEEDS_TARGET` -/
def scopeNeedsTarget : PlatformAccessScope → Bool
  | .view => false
  | .impersonate => true
  | .resetAccess => true

/-- `SCOPE_SINGLE_USE` -/
def scopeSingleUse : PlatformAccessScope → Bool
  | .view => false
  | .impersonate => false
  | .resetAccess => true

/-- A row of `platform_access_grants`, without the report of an emergency. -/
structure Grant where
  id : Text
  organizationId : Text
  scope : PlatformAccessScope
  targetUserId : Option Text
  reason : Text
  durationMinutes : ℤ
  status : PlatformAccessStatus
  emergencyCategory : Option PlatformEmergencyCategory
  requestedBy : Option Text
  requestedAt : ℤ
  applyAfter : Option ℤ
  decidedBy : Option Text
  decidedAt : Option ℤ
  decisionNote : Option Text
  expiresAt : Option ℤ
  revokedBy : Option Text
  revokedAt : Option ℤ
  usedAt : Option ℤ
  reportDueAt : Option ℤ
deriving DecidableEq

inductive GrantState
  | requested | waiting | active | expired | denied | cancelled | revoked
deriving DecidableEq, Repr

def grantState (g : Grant) (now : ℤ) : GrantState :=
  if g.revokedAt.isSome || g.status = .revoked then .revoked
  else if g.status = .denied then .denied
  else if g.status = .cancelled then .cancelled
  else if g.status = .requested then
    if requestTtlMs < now - g.requestedAt then .expired else .requested
  else if g.status = .waiting && g.applyAfter.any (now < ·) then .waiting
  else if g.expiresAt.all (· ≤ now) then .expired
  else .active

def grantActive (g : Grant) (now : ℤ) : Bool := grantState g now = .active

/-- `want` of `findActiveGrant` -/
structure Want where
  scope : PlatformAccessScope
  targetUserId : Option Text
  requestedBy : Option Text

def findActiveGrant (grants : List Grant) (want : Want) (now : ℤ) : Option Grant :=
  grants.find? fun g =>
    g.scope = want.scope && (!scopeNeedsTarget want.scope || g.targetUserId = want.targetUserId) &&
    (want.requestedBy = none || g.requestedBy = want.requestedBy) &&
    !(scopeSingleUse want.scope && g.usedAt.isSome) && grantActive g now

/-! ## Requests -/

/-- `RequestInput`; the duration is any finite number. -/
structure RequestInput where
  scope : PlatformAccessScope
  targetUserId : Option Text
  reason : Text
  durationMinutes : ℚ
  emergency : Option PlatformEmergencyCategory
  waiting : Bool

inductive RequestError
  | targetRequired | targetForbidden | reason | duration | emergencyDuration
  | emergencyScope | waitingScope | waitingAndEmergency
  | targetNotMember | waitingNotNeeded
deriving DecidableEq, Repr

/-- The truth value of an optional text. -/
def given (t : Option Text) : Bool := t.any (· ≠ [])

/-- `validateRequest`; scopes and categories are those of their types. -/
def validateRequest (input : RequestInput) : Option RequestError :=
  let needs := scopeNeedsTarget input.scope
  if needs && !given input.targetUserId then some .targetRequired
  else if !needs && given input.targetUserId then some .targetForbidden
  else if (trim input.reason).length < 10 then some .reason
  else if !input.durationMinutes.isInt || input.durationMinutes < minDurationMin ||
      maxDurationMin < input.durationMinutes then some .duration
  else if input.emergency.isSome && input.waiting then some .waitingAndEmergency
  else if input.emergency.isSome && input.scope = .resetAccess then some .emergencyScope
  else if input.emergency.isSome && emergencyMaxMin < input.durationMinutes then
    some .emergencyDuration
  else if input.waiting && input.scope ≠ .resetAccess then some .waitingScope
  else none

/-- The row that `requestPlatformAccess` inserts, its times and status from `initialGrant`. -/
def initialGrant (id orgId admin : Text) (input : RequestInput) (now : ℤ) : Grant :=
  let dur := input.durationMinutes.num * minute
  let base : Grant :=
    { id := id
      organizationId := orgId
      scope := input.scope
      targetUserId := input.targetUserId
      reason := trim input.reason
      durationMinutes := input.durationMinutes.num
      status := .requested
      emergencyCategory := none
      requestedBy := some admin
      requestedAt := now
      applyAfter := none
      decidedBy := none
      decidedAt := none
      decisionNote := none
      expiresAt := none
      revokedBy := none
      revokedAt := none
      usedAt := none
      reportDueAt := none }
  match input.emergency with
  | some category =>
    { base with
      status := .emergency
      emergencyCategory := some category
      expiresAt := some (now + min dur (emergencyMaxMin * minute))
      reportDueAt := some (now + reportDueMs) }
  | none =>
    if input.waiting then
      { base with
        status := .waiting
        applyAfter := some (now + waitMs)
        expiresAt := some (now + waitMs + dur) }
    else base

/-- `requestPlatformAccess`: the row for the table. `isMember` and `deciders` are what
`isMemberOf` and `deciderIds` answer. -/
def requestPlatformAccess (admin : Text) (input : RequestInput) (orgId id : Text)
    (isMember : Bool) (deciders : List Text) (now : ℤ) : Except RequestError Grant :=
  match validateRequest input with
  | some e => .error e
  | none =>
    if given input.targetUserId && !isMember then .error .targetNotMember
    else
      let others := deciders.filter fun d => some d ≠ input.targetUserId && d ≠ admin
      if input.waiting && 0 < others.length then .error .waitingNotNeeded
      else .ok (initialGrant id orgId admin input now)

/-! ## Decisions -/

/-- Who decides, and whether as an owner or of the top management. -/
structure Decider where
  userId : Text
  mayDecide : Bool
deriving DecidableEq

inductive DecisionError
  | notFound | notOpen | forbidden | self
deriving DecidableEq, Repr

def canDecide (g : Grant) (d : Decider) (now : ℤ) : Option DecisionError :=
  if grantState g now ≠ .requested then some .notOpen
  else if !d.mayDecide then some .forbidden
  else if some d.userId = g.requestedBy then some .self
  else if given g.targetUserId && some d.userId = g.targetUserId then some .self
  else none

def canRevoke (g : Grant) (d : Decider) (isTarget : Bool) (now : ℤ) : Option DecisionError :=
  let s := grantState g now
  if s ≠ .requested && s ≠ .waiting && s ≠ .active then some .notOpen
  else if !d.mayDecide && !isTarget then some .forbidden
  else none

def approvedExpiry (g : Grant) (now : ℤ) : ℤ := now + g.durationMinutes * minute

/-- The row after `decidePlatformAccess`. -/
def Grant.decided (g : Grant) (d : Decider) (approve : Bool) (note : Option Text) (now : ℤ) :
    Grant :=
  { g with
    status := if approve then .approved else .denied
    expiresAt := if approve then some (approvedExpiry g now) else none
    decidedBy := some d.userId
    decidedAt := some now
    decisionNote := (note.map trim).filter (· ≠ []) }

/-- The row after `revokePlatformAccess`. -/
def Grant.revoke (g : Grant) (d : Decider) (now : ℤ) : Grant :=
  { g with
    status := if g.status = .requested then .cancelled else .revoked
    revokedBy := some d.userId
    revokedAt := some now }

/-- The row of a grant that is used. -/
def Grant.spend (g : Grant) (now : ℤ) : Grant := { g with usedAt := some now }

end Klick.Lockbox
