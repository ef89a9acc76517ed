-- Single sign-on for each customer (`lib/auth/sso-policy.ts`, and what
-- `lib/auth/session-rules.ts` and `lib/auth/memberships.ts` say of roles): the
-- role from the groups, the second factor of the company from the claims, the
-- domain of a provider, and the gate where sign-on is enforced.
import Klick.LowerCase

open Js

namespace Klick.Sso

/-! ## Roles -/

inductive OrgRole
  | owner | editor | consultant | viewer | auditor | employee
deriving DecidableEq, Repr

def OrgRole.all : List (Text × OrgRole) :=
  [(js "owner", .owner), (js "editor", .editor), (js "consultant", .consultant),
    (js "viewer", .viewer), (js "auditor", .auditor), (js "employee", .employee)]

/-- `ROLE_RANK` -/
def OrgRole.rank : OrgRole → ℕ
  | .owner => 5
  | .editor => 4
  | .consultant => 3
  | .auditor => 2
  | .viewer => 1
  | .employee => 0

/-- One turn of the loop of `normalizeRole`; `admin` ends it. -/
def normalizeParts : Option OrgRole → List Text → OrgRole
  | best, [] => best.getD .viewer
  | best, p :: ps =>
    if p = js "admin" then .owner
    else
      match lookup p OrgRole.all, best with
      | some r, none => normalizeParts (some r) ps
      | some r, some b => normalizeParts (some (if r.rank > b.rank then r else b)) ps
      | none, _ => normalizeParts best ps

/-- `normalizeRole`: of several roles the highest. -/
def normalizeRole (raw : Text) : OrgRole :=
  normalizeParts none ((raw.splitOn (ch ',')).map trim)

/-- `membershipAllowed`: one membership of one's own, any number as a consultant. -/
def membershipAllowed (existing : List OrgRole) (role : OrgRole) : Bool :=
  role = .consultant || (existing.filter (· ≠ .consultant)).length = 0

/-- `SSO_ROLES` -/
inductive SsoRole
  | employee | viewer | editor
deriving DecidableEq, Repr

def SsoRole.rank : SsoRole → ℕ
  | .employee => 0
  | .viewer => 1
  | .editor => 2

def SsoRole.text : SsoRole → Text
  | .employee => js "employee"
  | .viewer => js "viewer"
  | .editor => js "editor"

def SsoRole.toOrg : SsoRole → OrgRole
  | .employee => .employee
  | .viewer => .viewer
  | .editor => .editor

/-- The roles that the groups of the company decide. -/
def OrgRole.fromGroups (r : OrgRole) : Bool := r = .employee || r = .viewer || r = .editor

theorem normalizeRole_text (r : SsoRole) : normalizeRole r.text = r.toOrg := by
  cases r <;> decide

/-! ## The policy of an organisation -/

structure SsoGroupRole where
  group : Text
  role : SsoRole
deriving DecidableEq, Repr

structure SsoPolicy where
  enforce : Bool
  trustIdpMfa : Bool
  defaultRole : SsoRole
  groupRoles : List SsoGroupRole
  groupClaim : Text

/-- `DEFAULT_SSO_POLICY` -/
def defaultSsoPolicy : SsoPolicy where
  enforce := false
  trustIdpMfa := false
  defaultRole := .employee
  groupRoles := []
  groupClaim := js "groups"

/-- `v?.[k]` -/
def property (v : Value) (k : Text) : Value :=
  match v with
  | .obj fields => (lookup k fields).getD .undefined
  | _ => .undefined

def ssoRoleOf (v : Value) : Option SsoRole :=
  match v with
  | .str t => [SsoRole.employee, .viewer, .editor].find? fun r => r.text = t
  | _ => none

def groupRoleOf (g : Value) : Option SsoGroupRole :=
  match ssoRoleOf (property g (js "role")), property g (js "group") with
  | some role, .str t => if trim t = [] then none else some ⟨trim t, role⟩
  | _, _ => none

def ssoPolicyOf (raw : Value) : SsoPolicy where
  enforce := property raw (js "enforce") matches .bool true
  trustIdpMfa := property raw (js "trustIdpMfa") matches .bool true
  defaultRole := (ssoRoleOf (property raw (js "defaultRole"))).getD defaultSsoPolicy.defaultRole
  groupRoles :=
    match property raw (js "groupRoles") with
    | .arr items => items.filterMap groupRoleOf
    | _ => []
  groupClaim :=
    match property raw (js "groupClaim") with
    | .str t => if trim t = [] then defaultSsoPolicy.groupClaim else trim t
    | _ => defaultSsoPolicy.groupClaim

/-! ## Groups and the second factor -/

/-- The claims or attributes of a sign-on. -/
abbrev Claims := List (Text × Value)

def Claims.get (c : Claims) (k : Text) : Value := (lookup k c).getD .undefined

def textOf : Value → Option Text
  | .str t => some t
  | _ => none

def groupsFrom (claims : Claims) (claim : Text) : List Text :=
  let list := match claims.get claim with
    | .arr items => items.filterMap textOf
    | .str t => t.splitOn (ch ',')
    | _ => []
  (list.map trim).filter (· ≠ [])

section

variable (L : LowerCase)

/-- `roleFromGroups`: the highest role of a group that is there. -/
def roleFromGroups (groups : List Text) (policy : SsoPolicy) : SsoRole :=
  let present := groups.map L.lower
  let best := policy.groupRoles.foldl (fun best m =>
    if L.lower m.group ∈ present then
      match best with
      | some b => if m.role.rank > b.rank then some m.role else some b
      | none => some m.role
    else best) none
  best.getD policy.defaultRole

/-- `AMR_MFA` -/
def amrMfa : List Text :=
  [js "mfa", js "otp", js "hwk", js "swk", js "sms", js "fpt", js "face", js "sc"]

/-- `ACR_MFA` -/
def acrMfa : List Text :=
  [js "http://schemas.openid.net/pape/policies/2007/06/multi-factor", js "phr", js "phrh"]

def oidcMfa (claims : Claims) : Bool :=
  (match claims.get (js "amr") with
    | .arr items => (items.filterMap textOf).any fun a => L.lower a ∈ amrMfa
    | _ => false) ||
  (match claims.get (js "acr") with
    | .str t => decide (t ∈ acrMfa)
    | _ => false)

end

/-- `SAML_MFA_VALUES` -/
def samlMfaValues : List Text :=
  [js "http://schemas.microsoft.com/claims/multipleauthn",
    js "urn:oasis:names:tc:SAML:2.0:ac:classes:MobileTwoFactorContract",
    js "urn:oasis:names:tc:SAML:2.0:ac:classes:TimeSyncToken",
    js "https://refeds.org/profile/mfa"]

/-- `/authnmethodsreferences|authncontextclassref/i` -/
def isAuthnAttribute (k : Text) : Bool :=
  decide (js "authnmethodsreferences" <:+: lowerAscii k) ||
    decide (js "authncontextclassref" <:+: lowerAscii k)

def samlMfa (attributes : Claims) : Bool :=
  attributes.any fun a => isAuthnAttribute a.1 &&
    ((match a.2 with
      | .arr items => items
      | v => [v]).filterMap textOf).any (· ∈ samlMfaValues)

/-! ## Paths and the gate -/

def isSsoCallbackPath (path : Option Text) : Bool :=
  match path with
  | some p => (js "/sso/callback").isPrefixOf p || (js "/sso/saml2/sp/acs").isPrefixOf p
  | none => false

/-- `ssoCallbackProviderId`: the provider of a callback, from its path. -/
def ssoCallbackProviderId (path : Option Text) (params : Claims) : Option Text :=
  if !isSsoCallbackPath path then none
  else
    match params.get (js "providerId") with
    | .str t => if t = [] then none else some t
    | _ => none

/-- A session that the operator of the platform takes on for an account. -/
def isImpersonation (path : Option Text) : Bool :=
  match path with
  | some p => (js "/admin/impersonate").isPrefixOf p
  | none => false

structure EnforcingOrg where
  orgId : Text
  isOwner : Bool
deriving DecidableEq, Repr

inductive Gate
  | allow | deny | bypass
deriving DecidableEq, Repr

def ssoGate (path : Option Text) (enforcingOrgs : List EnforcingOrg) : Gate :=
  if enforcingOrgs = [] then .allow
  else if isSsoCallbackPath path then .allow
  else if isImpersonation path then .allow
  else if enforcingOrgs.all (·.isOwner) then .bypass
  else .deny

theorem ssoGate_eq_deny {path : Option Text} {orgs : List EnforcingOrg} {o : EnforcingOrg}
    (hpath : isSsoCallbackPath path = false) (himp : isImpersonation path = false)
    (ho : o ∈ orgs) (hown : o.isOwner = false) : ssoGate path orgs = .deny := by
  unfold ssoGate
  have hne : orgs ≠ [] := by
    rintro rfl
    cases ho
  have hall : orgs.all (·.isOwner) = false := by
    rw [List.all_eq_false]
    exact ⟨o, ho, by simp [hown]⟩
  simp [hne, hpath, himp, hall]

/-! ## The domain of a provider -/

structure SsoProvider where
  providerId : Text
  organizationId : Option Text
  issuer : Text
  domain : Text
  domainVerified : Option Bool

/-- The domains of a provider, as `ssoEmailAllowed` reads them. -/
def SsoProvider.names (L : LowerCase) (p : SsoProvider) : List Text :=
  (p.domain.splitOn (ch ',')).map fun d => L.lower (trim d)

/-- `ssoEmailAllowed`: the address belongs to one of the confirmed domains. -/
def ssoEmailAllowed (L : LowerCase) (email : Text) (provider : Option SsoProvider) : Bool :=
  match provider with
  | none => false
  | some p =>
    if p.domainVerified ≠ some true ∨ email = [] then false
    else
      match lastIndexOf (ch '@') email with
      | none => false
      | some i =>
        if i < 1 then false
        else
          let domain := L.lower (trim (email.drop (i + 1)))
          (p.names L).any fun d => 0 < d.length && d = domain

end Klick.Sso
