-- What happens to an account at each sign-on of its company (`provisionSsoUser` of
-- `lib/auth/sso-provisioning.ts`): membership, role and the newest session of the last minute
-- are read in statements of their own, and written later.
import Klick.SsoDomains
import Klick.Interleaving

open Js Interleaving

namespace Klick.Sso.Provisioning

/-! ## The claims of a callback -/

structure ProvisionInput where
  userId : Text
  email : Text
  userInfo : Claims
  /-- The claims of the id token; without one it is SAML. -/
  idToken : Option Claims
  provider : SsoProvider

/-- `{ ...idTokenClaims(…), ...userInfo }` -/
def ProvisionInput.claims (p : ProvisionInput) : Claims := p.userInfo ++ p.idToken.getD []

/-- `String(claims.hd ?? "")` -/
def hdText (claims : Claims) : Except Exn Text :=
  match claims.get (js "hd") with
  | .undefined => .ok []
  | .null => .ok []
  | v => v.toText

section Plan

variable (L : LowerCase)

/-- A Google account of the domain, or not of Google. -/
def ProvisionInput.passesHostedDomain (p : ProvisionInput) : Bool :=
  if p.provider.issuer = js "https://accounts.google.com" then
    match hdText p.claims with
    | .ok hd => L.lower hd = L.lower p.provider.domain
    | .error _ => false
  else true

/-- The claims prove that the company has asked for a second factor. -/
def ProvisionInput.provesMfa (p : ProvisionInput) : Bool :=
  match p.idToken with
  | none => samlMfa p.userInfo
  | some _ => oidcMfa L p.claims

structure Plan where
  org : Text
  role : SsoRole
  mfa : Bool
deriving DecidableEq, Repr

/-- What is to be done for a callback, if anything. -/
def planOf (ssoPolicy : Text → Value) (p : ProvisionInput) : Option Plan :=
  match p.provider.organizationId with
  | none => none
  | some org =>
    if org = [] then none
    else if !passesDomainCheck L p.email p.provider then none
    else if !p.passesHostedDomain L then none
    else
      let policy := ssoPolicyOf (ssoPolicy org)
      some {
        org
        role := roleFromGroups L (groupsFrom p.claims policy.groupClaim) policy
        mfa := policy.trustIdpMfa && p.provesMfa L }

end Plan

/-! ## Sessions -/

structure Session where
  id : Text
  userId : Text
  createdAt : ℤ
  impersonated : Bool
  activeOrganizationId : Option Text
  mfaVerifiedAt : Option ℤ
  mfaOrgId : Option Text
  stepUpAt : Option ℤ
  lastActiveAt : Option ℤ
  /-- The callback that made it; no statement reads it. -/
  callback : Option ℕ
  /-- The organisation whose sign-on gave the confirmation; no statement reads it. -/
  confirmedFor : Option Text
deriving DecidableEq

/-- `effectiveMfaVerifiedAt` -/
def effectiveMfaVerifiedAt (s : Session) : Option ℤ :=
  match s.mfaVerifiedAt, s.mfaOrgId with
  | none, _ => none
  | some t, none => some t
  | some t, some org => if org ≠ [] ∧ s.activeOrganizationId ≠ some org then none else some t

/-- `STEP_UP_MS` -/
def stepUpMs : ℤ := 15 * 60 * 1000

/-- `isStepUpFresh` -/
def isStepUpFresh (stepUpAt mfaVerifiedAt : Option ℤ) (now : ℤ) : Bool :=
  match stepUpAt.or mfaVerifiedAt with
  | some t => now - t ≤ stepUpMs
  | none => false

/-! ## Provisioning, step by step -/

inductive Stage
  | planned
  /-- Not a member; whether a membership may be made. -/
  | absent (allowed : Bool)
  | joining
  | changing (memberId : Text)
  /-- The membership is done with. -/
  | settled (here joined : Bool)
  /-- The newest session was read. -/
  | chosen (joined : Bool) (latest : Session)
deriving DecidableEq

structure Provision where
  callback : ℕ
  input : ProvisionInput
  plan : Plan
  sessionId : Text
  stage : Stage

structure InvitationRow where
  organizationId : Text
  email : Text
  pending : Bool
  expiresAt : ℤ
deriving DecidableEq

/-- A membership commit of a provisioning: how many memberships of its own the account had before
and has after it. -/
structure Commit where
  before : ℕ
  after : ℕ
deriving DecidableEq

/-- A confirmation that was set, and on whose session. -/
structure Confirmation where
  callback : ℕ
  input : ProvisionInput
  org : Text
  createdBy : Option ℕ

structure World where
  clock : ℤ
  members : List Member
  invitations : List InvitationRow
  sessions : List Session
  ssoPolicy : Text → Value
  callbacks : ℕ
  provisions : List Provision
  /-- The roles that a provisioning has overwritten. -/
  overwritten : List Text
  commits : List Commit
  confirmations : List Confirmation

inductive Act
  | pass (t : ℤ)
  | setPolicy (ssoPolicy : Text → Value)
  | writeInvitations (rows : List InvitationRow)
  | addMember (row : Member)
  | setRole (memberId role : Text)
  | removeMember (memberId : Text)
  /-- Any other way to sign on. -/
  | login (id userId : Text) (impersonated : Bool) (mfaVerifiedAt : Option ℤ)
  | ownFactor (sessionId : Text)
  | stepUp (sessionId : Text)
  | setActive (sessionId : Text) (org : Option Text)
  | endSession (sessionId : Text)
  /-- The callback makes its session, then calls `provisionSsoUser`. -/
  | callback (input : ProvisionInput) (sessionId : Text)
  | readMembers (i : ℕ)
  | readInvitation (i : ℕ)
  | commitMember (i : ℕ) (memberId : Text)
  | readSession (i : ℕ)
  | confirm (i : ℕ)
  | fail (i : ℕ)

section Steps

variable (L : LowerCase)

/-- The memberships of an account that are not a consultant's. -/
def World.ownCount (w : World) (userId : Text) : ℕ :=
  w.members.countP fun m => m.userId = userId && normalizeRole m.role ≠ .consultant

def World.setStage (w : World) (i : ℕ) (p : Provision) (stage : Stage) : World :=
  { w with provisions := w.provisions.set i { p with stage } }

def World.drop (w : World) (i : ℕ) : World := { w with provisions := w.provisions.eraseIdx i }

/-- What the memberships that were read lead to. -/
def stageOfMembers (memberships : List Member) (plan : Plan) : Stage :=
  match memberships.find? fun m => m.organizationId = plan.org with
  | none => .absent (membershipAllowed (memberships.map fun m => normalizeRole m.role)
      plan.role.toOrg)
  | some here =>
    let current := normalizeRole here.role
    if current ≠ plan.role.toOrg ∧ current.fromGroups then .changing here.id
    else .settled true false

/-- An open invitation of the address: then the account is to accept that. -/
def World.hasPending (w : World) (org email : Text) : Bool :=
  w.invitations.any fun inv =>
    inv.organizationId = org && inv.email = email && inv.pending && w.clock < inv.expiresAt

def World.join (w : World) (i : ℕ) (p : Provision) (memberId : Text) : World :=
  let row : Member := ⟨memberId, p.plan.org, p.input.userId, p.plan.role.text⟩
  let w' := { w with
    members := w.members ++ [row]
    provisions := w.provisions.set i { p with stage := .settled false true } }
  { w' with commits := ⟨w.ownCount p.input.userId, w'.ownCount p.input.userId⟩ :: w.commits }

def World.changeRole (w : World) (i : ℕ) (p : Provision) (memberId : Text) : World :=
  let w' := { w with
    members := updateRows (·.id = memberId) (fun m => { m with role := p.plan.role.text }) w.members
    provisions := w.provisions.set i { p with stage := .settled true false } }
  { w' with
    overwritten := (w.members.filter (·.id = memberId)).map (·.role) ++ w.overwritten
    commits := ⟨w.ownCount p.input.userId, w'.ownCount p.input.userId⟩ :: w.commits }

/-- The rows of which the newest is taken to be the session of the callback. -/
def World.recent (w : World) (userId : Text) : List Session :=
  w.sessions.filter fun s => s.userId = userId && w.clock - 60000 < s.createdAt && !s.impersonated

/-- `orderBy(desc(createdAt)).limit(1)` -/
def newest : List Session → Option Session
  | [] => none
  | s :: rest =>
    match newest rest with
    | none => some s
    | some t => if s.createdAt < t.createdAt then some t else some s

theorem newest_spec {l : List Session} {t : Session} (h : newest l = some t) :
    t ∈ l ∧ ∀ s ∈ l, s.createdAt ≤ t.createdAt := by
  induction l generalizing t with
  | nil => cases h
  | cons s rest ih =>
    rw [newest] at h
    split at h
    · rename_i hnone
      cases h
      have hrest : rest = [] := by
        cases rest with
        | nil => rfl
        | cons r rs =>
          rw [newest] at hnone
          split at hnone
          · cases hnone
          · split_ifs at hnone
      simp [hrest]
    · rename_i u hu
      obtain ⟨hmem, hall⟩ := ih hu
      split_ifs at h with hlt
      · cases h
        refine ⟨List.mem_cons_of_mem _ hmem, ?_⟩
        intro r hr
        rcases List.mem_cons.mp hr with rfl | hr
        · exact hlt.le
        · exact hall r hr
      · cases h
        refine ⟨List.mem_cons_self, ?_⟩
        intro r hr
        rcases List.mem_cons.mp hr with rfl | hr
        · exact le_rfl
        · exact (hall r hr).trans (not_lt.mp hlt)

/-- What is set on the session that was read. -/
def confirmed (joined : Bool) (plan : Plan) (latest : Session) (now : ℤ) (s : Session) : Session :=
  let s := if joined && latest.activeOrganizationId = none then
    { s with activeOrganizationId := some plan.org } else s
  if plan.mfa && latest.mfaVerifiedAt = none then
    { s with
      mfaVerifiedAt := some now
      mfaOrgId := some plan.org
      stepUpAt := some 0
      lastActiveAt := some now
      confirmedFor := some plan.org }
  else s

def World.confirm (w : World) (i : ℕ) (p : Provision) (joined : Bool) (latest : Session) : World :=
  { w with
    sessions := updateRows (·.id = latest.id) (confirmed joined p.plan latest w.clock) w.sessions
    confirmations :=
      (if p.plan.mfa && latest.mfaVerifiedAt = none then
        (w.sessions.filter (·.id = latest.id)).map fun s =>
          ⟨p.callback, p.input, p.plan.org, s.callback⟩
      else []) ++ w.confirmations
    provisions := w.provisions.eraseIdx i }

/-- One step of a provisioning. -/
def provisionStep (w : World) (i : ℕ) (p : Provision) (act : Act) : Option World :=
  match p.stage, act with
  | .planned, .readMembers _ =>
    some (w.setStage i p
      (stageOfMembers (w.members.filter fun m => m.userId = p.input.userId) p.plan))
  | .absent allowed, .readInvitation _ =>
    some (w.setStage i p (if w.hasPending p.plan.org (L.lower p.input.email) || !allowed then
      .settled false false else .joining))
  | .joining, .commitMember _ memberId =>
    -- the ids of new rows are random
    if (∃ m ∈ w.members, m.id = memberId) ∨ ∃ q ∈ w.provisions, q.stage = .changing memberId then
      none
    else some (w.join i p memberId)
  | .changing memberId, .commitMember _ _ => some (w.changeRole i p memberId)
  | .settled here joined, .readSession _ =>
    some (if (!joined && !p.plan.mfa) || (!here && !joined) then w.drop i
      else match newest (w.recent p.input.userId) with
        | none => w.drop i
        | some latest => w.setStage i p (.chosen joined latest))
  | .chosen joined latest, .confirm _ => some (w.confirm i p joined latest)
  | _, .fail _ => some (w.drop i)
  | _, _ => none

def World.provisionAct (w : World) (i : ℕ) (act : Act) : Option World :=
  (w.provisions[i]?).bind fun p => provisionStep L w i p act

/-- A session id that was never given. -/
def World.NewSession (w : World) (id : Text) : Prop :=
  (∀ s ∈ w.sessions, s.id ≠ id) ∧ ∀ p ∈ w.provisions, p.sessionId ≠ id

instance (w : World) (id : Text) : Decidable (w.NewSession id) :=
  inferInstanceAs (Decidable (_ ∧ _))

/-- A session as a sign-on makes it. -/
def newSession (id userId : Text) (now : ℤ) (impersonated : Bool) (mfaVerifiedAt : Option ℤ)
    (callback : Option ℕ) : Session :=
  ⟨id, userId, now, impersonated, none, mfaVerifiedAt, none, none, some now, callback, none⟩

def World.setSession (w : World) (id : Text) (f : Session → Session) : World :=
  { w with sessions := updateRows (·.id = id) f w.sessions }

/-- One step of anybody. -/
def step (w : World) (act : Act) : Option World :=
  match act with
  | .pass t => if w.clock ≤ t then some { w with clock := t } else none
  | .setPolicy ssoPolicy => some { w with ssoPolicy }
  | .writeInvitations rows => some { w with invitations := rows }
  | .addMember row =>
    if (∃ m ∈ w.members, m.id = row.id) ∨ ∃ q ∈ w.provisions, q.stage = .changing row.id then none
    else some { w with members := w.members ++ [row] }
  | .setRole memberId role =>
    some { w with members := updateRows (·.id = memberId) (fun m => { m with role }) w.members }
  | .removeMember memberId => some { w with members := w.members.filter (·.id ≠ memberId) }
  | .login id userId impersonated mfaVerifiedAt =>
    if w.NewSession id then
      some { w with
        sessions := newSession id userId w.clock impersonated mfaVerifiedAt none :: w.sessions }
    else none
  | .ownFactor sessionId =>
    some (w.setSession sessionId fun s => { s with
      mfaVerifiedAt := some w.clock
      mfaOrgId := none
      lastActiveAt := some w.clock
      confirmedFor := none })
  | .stepUp sessionId =>
    some (w.setSession sessionId fun s =>
      { s with stepUpAt := some w.clock, lastActiveAt := some w.clock })
  | .setActive sessionId org =>
    some (w.setSession sessionId fun s => { s with activeOrganizationId := org })
  | .endSession sessionId => some { w with sessions := w.sessions.filter (·.id ≠ sessionId) }
  | .callback input sessionId =>
    if w.NewSession sessionId then
      let own := newSession sessionId input.userId w.clock false none (some w.callbacks)
      let provisions := match planOf L w.ssoPolicy input with
        | some plan => ⟨w.callbacks, input, plan, sessionId, .planned⟩ :: w.provisions
        | none => w.provisions
      some { w with sessions := own :: w.sessions, callbacks := w.callbacks + 1, provisions }
    else none
  | .readMembers i => w.provisionAct L i act
  | .readInvitation i => w.provisionAct L i act
  | .commitMember i _ => w.provisionAct L i act
  | .readSession i => w.provisionAct L i act
  | .confirm i => w.provisionAct L i act
  | .fail i => w.provisionAct L i act

end Steps

end Klick.Sso.Provisioning
