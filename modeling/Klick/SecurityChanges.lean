-- Four eyes on security changes (`lib/security-changes/rules.ts`): the kinds of
-- changes, the state of a request, and who may decide and cancel it; and what
-- the service makes of a request (`lib/security-changes/service.ts`).
import Klick.Coercion

open Js

namespace Klick.SecurityChanges

/-! ## Kinds -/

/-- `SECURITY_CHANGE_KINDS` -/
inductive Kind
  | ssoPolicy | dlpPolicy | networkPolicy | aiPolicy | signaturePolicy | ssoSamlCert
  | identityPolicy
  | orgDelete | orgReset | fullExport | memberResetAccess | integrationToken
  | ssoProviderRemove | identitySourceRemove | ownerAdd | ownerRemove
deriving DecidableEq, Repr

def applyKinds : List Kind :=
  [.ssoPolicy, .dlpPolicy, .networkPolicy, .aiPolicy, .signaturePolicy, .ssoSamlCert,
    .identityPolicy]

def isApplyKind (k : Kind) : Bool := k ∈ applyKinds

/-- `SECURITY_CHANGE_STATUS` -/
inductive Status
  | pending | waiting | approved | applied | rejected | cancelled | expired
deriving DecidableEq, Repr

/-- A row of `security_changes`; times in milliseconds, no value as null. -/
structure SecurityChange where
  id : Text
  kind : Kind
  targetKey : Option Text
  summary : Text
  payload : Value
  before : Value
  status : Status
  requestedBy : Option Text
  requestedAt : ℤ
  applyAfter : Option ℤ
  permitUntil : Option ℤ
  decidedBy : Option Text
  decidedAt : Option ℤ
  decisionNote : Option Text
  appliedAt : Option ℤ
  cancelledBy : Option Text
  cancelledAt : Option ℤ

/-! ## State -/

def hour : ℤ := 60 * 60 * 1000

def waitMs : ℤ := 24 * hour

def permitMs : ℤ := 24 * hour

def requestTtlMs : ℤ := 7 * 24 * hour

inductive ChangeState
  | pending | waiting | due | permitted | applied | rejected | cancelled | expired
deriving DecidableEq, Repr

/-- The permit of a request at a time. -/
def permitState (c : SecurityChange) (now : ℤ) : ChangeState :=
  if c.permitUntil.any fun t => now < t then .permitted else .expired

def changeState (c : SecurityChange) (now : ℤ) : ChangeState :=
  match c.status with
  | .pending => if now - c.requestedAt > requestTtlMs then .expired else .pending
  | .waiting =>
    if c.applyAfter.any fun t => now < t then .waiting
    else if isApplyKind c.kind then .due
    else permitState c now
  | .approved => permitState c now
  | .applied => .applied
  | .rejected => .rejected
  | .cancelled => .cancelled
  | .expired => .expired

def openStates : List ChangeState := [.pending, .waiting, .due, .permitted]

def isOpen (c : SecurityChange) (now : ℤ) : Bool := changeState c now ∈ openStates

/-! ## Deciders -/

def deciderTenureMs : ℤ := 24 * hour

structure Candidate where
  userId : Text
  since : ℤ
deriving DecidableEq

def eligibleDeciders (candidates : List Candidate) (now : ℤ) : List Text :=
  ((candidates.filter fun c => deciderTenureMs ≤ now - c.since).map (·.userId)).eraseDups

/-- What a new request becomes. -/
structure Route where
  status : Status
  applyAfter : Option ℤ
  permitUntil : Option ℤ
  notify : List Text

/-- The deciders other than the requester. -/
def others (deciders : List Text) (requester : Text) : List Text :=
  deciders.eraseDups.filter fun id => id ≠ requester

def changeRoute (deciders : List Text) (requester : Text) (now : ℤ) : Route :=
  if others deciders requester ≠ [] then ⟨.pending, none, none, others deciders requester⟩
  else ⟨.waiting, some (now + waitMs), some (now + waitMs + permitMs), [requester]⟩

/-- `canDecideChange`: the error, if there is one. -/
def canDecideChange (c : SecurityChange) (userId : Text) (deciders : List Text) (now : ℤ) :
    Option String :=
  if changeState c now ≠ .pending then some "four_eyes_not_open"
  else if c.requestedBy = some userId then some "four_eyes_self"
  else if userId ∉ deciders then some "forbidden"
  else none

def canCancelChange (c : SecurityChange) (userId : Text) (deciders : List Text) (now : ℤ) :
    Option String :=
  if !isOpen c now then some "four_eyes_not_open"
  else if c.requestedBy ≠ some userId ∧ userId ∉ deciders then some "forbidden"
  else none

/-- A member of the organisation, and whether the normalised role is the owner's. -/
structure Member where
  memberId : Text
  userId : Text
  createdAt : ℤ
  owner : Bool

/-- An appointment to the top management that is in effect. -/
structure Assignment where
  id : Text
  userId : Option Text
  deputyUserId : Option Text
  createdAt : ℤ

/-- The people of the organisation, and the approved requests for their appointments. -/
structure People where
  members : List Member
  assignments : List Assignment
  appointments : List (Option Text × Option ℤ)

/-- The latest time of a key. -/
def latestAt (rows : List (Option Text × Option ℤ)) (key : Text) : Option ℤ :=
  ((rows.filter fun r => r.1 = some key).filterMap (·.2)).max?

def later (a : ℤ) : Option ℤ → ℤ
  | some b => if b > a then b else a
  | none => a

/-- Who may decide, and since when: owners since they joined or were last made an owner, the top
management since their appointment. -/
def candidates (p : People) (changes : List SecurityChange) : List Candidate :=
  let promoted := (changes.filter fun c => c.kind = .ownerAdd ∧ c.status = .applied).map fun c =>
    (c.targetKey, c.appliedAt)
  ((p.members.filter (·.owner)).map fun m =>
    ⟨m.userId, later m.createdAt (latestAt promoted m.memberId)⟩) ++
  p.assignments.flatMap fun r =>
    ([r.userId, r.deputyUserId].filterMap id |>.filter (· ≠ [])).map fun userId =>
      ⟨userId, later r.createdAt (latestAt p.appointments r.id)⟩

def changeDeciders (p : People) (changes : List SecurityChange) (now : ℤ) : List Text :=
  eligibleDeciders (candidates p changes) now

/-! ## Settings -/

/-- The metadata of an identity provider, as far as they are read here. -/
structure IdpMetadata where
  entityId : Text
  ssoUrl : Option Text
  fingerprints : List Text

/-- A SAML provider with its state: the certificate in use, and the one that has been seen. -/
structure SamlProvider where
  issuer : Text
  samlConfig : Option Text
  nextMetadata : Option Text
  nextCertFingerprints : Option Text
  certFingerprints : Option Text

/-- The settings that a change can write, and what it asks for besides. -/
structure Settings where
  columns : Kind → Value
  providers : Text → Option SamlProvider
  /-- some SSO provider has a verified domain -/
  verified : Bool
  /-- the stored keys of AI providers -/
  credentials : List Text

/-- What a change writes. -/
inductive Write
  | column (kind : Kind) (value : Value)
  | provider (id : Text) (p : SamlProvider)

/-- The setting that is written. -/
inductive Target
  | column (kind : Kind)
  | provider (id : Text)
deriving DecidableEq

def Write.target : Write → Target
  | .column kind _ => .column kind
  | .provider id _ => .provider id

def Settings.put (s : Settings) : Write → Settings
  | .column kind value => { s with columns := Function.update s.columns kind value }
  | .provider id p => { s with providers := Function.update s.providers id (some p) }

/-- Why an application fails: with a code, after which the request expires, or by an error that
undoes the transaction. -/
inductive Failure
  | fourEyes (code : String)
  | thrown (e : Exn)
deriving DecidableEq

/-- `v ?? null` -/
def orNull : Value → Value
  | .undefined => .null
  | v => v

/-- A member of an object, or an empty text. -/
def textAt (v : Value) (k : String) : Text :=
  match v.get (js k) with
  | .str t => t
  | _ => []

def textAt? (v : Value) (k : String) : Option Text :=
  match v.get (js k) with
  | .str t => some t
  | _ => none

def fingerprintSet (certs : List Text) : Text :=
  join (ch ',') (certs.eraseDups.insertionSort fun a b => textLe a b = true)

section Apply

variable (readIdpMetadata : Text → ℤ → Option IdpMetadata) (credentialOf : Value → Option Text)

/-- The configuration of a provider with the new metadata. -/
def nextConfig (cfg : Value) (m : IdpMetadata) (metadata : Text) : Except Exn Text := do
  let entryPoint ← match m.ssoUrl with
    | some url => pure (.str url)
    | none => cfg.prop "entryPoint"
  return stringify (.obj (setField (setField (setField cfg.entries (js "cert") .undefined)
    (js "entryPoint") entryPoint) (js "idpMetadata") (.obj [(js "metadata", .str metadata)])))

/-- `adoptNextMetadata`, up to its writing. -/
def adoptNextMetadata (s : Settings) (providerId next : Text) (current : Option Text) (now : ℤ) :
    Except Failure Write :=
  match s.providers providerId with
  | none => .error (.fourEyes "four_eyes_stale")
  | some p =>
    match p.nextMetadata with
    | none => .error (.fourEyes "four_eyes_stale")
    | some metadata =>
      if metadata = [] ∨ p.nextCertFingerprints ≠ some next ∨ p.certFingerprints ≠ current then
        .error (.fourEyes "four_eyes_stale")
      else
        match readIdpMetadata metadata now, p.samlConfig with
        | some m, some config =>
          if fingerprintSet m.fingerprints ≠ next ∨ config = [] then
            .error (.fourEyes "four_eyes_stale")
          else if m.entityId ≠ p.issuer then .error (.fourEyes "sso_cert_entity_changed")
          else
            match parseJson config with
            | .error _ => .error (.fourEyes "four_eyes_stale")
            | .ok cfg =>
              match nextConfig cfg m metadata with
              | .error e => .error (.thrown e)
              | .ok samlConfig => .ok (.provider providerId
                  ⟨p.issuer, some samlConfig, none, none, some next⟩)
        | _, _ => .error (.fourEyes "four_eyes_stale")

/-- The providers that a request names: which, and the fingerprints now and next. -/
def samlOf (c : SecurityChange) : Text × Text × Option Text :=
  (textAt (c.payload.get (js "value")) "providerId",
    textAt (c.payload.get (js "value")) "fingerprints", textAt? c.before "fingerprints")

/-- A value that is an object. -/
def isObject : Value → Bool
  | .obj _ => true
  | .arr _ => true
  | _ => false

/-- `applyChange`, up to its writing: what it reads, and what it will write. -/
def applyChange (c : SecurityChange) (s : Settings) (now : ℤ) : Except Failure Write :=
  if c.kind = .ssoSamlCert then
    let (providerId, next, current) := samlOf c
    adoptNextMetadata readIdpMetadata s providerId next current now
  else if stringify (orNull (s.columns c.kind)) ≠ stringify (orNull c.before) then
    .error (.fourEyes "four_eyes_stale")
  else
    let value := c.payload.get (js "value")
    if !isObject value then .error (.fourEyes "four_eyes_stale")
    else if c.kind = .ssoPolicy ∧ (value.get (js "enforce")).truthy = true ∧ s.verified = false then
      .error (.fourEyes "sso_enforce_unverified")
    else if c.kind = .aiPolicy ∧ (credentialOf value).any (fun id => id ∉ s.credentials) = true then
      .error (.fourEyes "four_eyes_stale")
    else .ok (.column c.kind value)

/-- The setting is still the one that the request recorded. -/
def StillRecorded (c : SecurityChange) (s : Settings) : Prop :=
  if c.kind = .ssoSamlCert then
    ∃ p, s.providers (samlOf c).1 = some p ∧ p.nextCertFingerprints = some (samlOf c).2.1 ∧
      p.certFingerprints = (samlOf c).2.2
  else stringify (orNull (s.columns c.kind)) = stringify (orNull c.before)

/-- The setting that a request is about. -/
def targetOf (c : SecurityChange) : Target :=
  if c.kind = .ssoSamlCert then .provider (samlOf c).1 else .column c.kind

variable {readIdpMetadata credentialOf} in
/-- What an application has read is what the request recorded, and it writes the same setting. -/
theorem applyChange_ok {c : SecurityChange} {s : Settings} {now : ℤ} {write : Write}
    (h : applyChange readIdpMetadata credentialOf c s now = .ok write) :
    StillRecorded c s ∧ write.target = targetOf c := by
  unfold applyChange at h
  unfold StillRecorded targetOf
  by_cases hk : c.kind = .ssoSamlCert
  · rw [if_pos hk] at h
    rw [if_pos hk, if_pos hk]
    unfold adoptNextMetadata at h
    dsimp only at h
    split at h
    · cases h
    · rename_i p hp
      split at h
      · cases h
      · rename_i metadata hm
        split at h
        · cases h
        · rename_i hsame
          push Not at hsame
          split at h
          · split at h
            · cases h
            · split at h
              · cases h
              · split at h
                · cases h
                · split at h
                  · cases h
                  · cases h
                    exact ⟨⟨p, hp, hsame.2.1, hsame.2.2⟩, rfl⟩
          · cases h
  · rw [if_neg hk] at h
    rw [if_neg hk, if_neg hk]
    split at h
    · cases h
    · rename_i hsame
      dsimp only at h
      split at h
      · cases h
      · split at h
        · cases h
        · split at h
          · cases h
          · cases h
            exact ⟨not_not.mp hsame, rfl⟩

/-- A write to another setting leaves it as it is. -/
theorem StillRecorded.put {c : SecurityChange} {s : Settings} {write : Write}
    (h : StillRecorded c s) (ht : write.target ≠ targetOf c) : StillRecorded c (s.put write) := by
  unfold StillRecorded targetOf at *
  by_cases hk : c.kind = .ssoSamlCert
  · rw [if_pos hk] at h ht ⊢
    cases write with
    | column kind value => exact h
    | provider id p =>
      have hid : (samlOf c).1 ≠ id := by
        rintro hid
        exact ht (by rw [hid]; rfl)
      rw [Settings.put]
      dsimp only
      rwa [Function.update_of_ne hid]
  · rw [if_neg hk] at h ht ⊢
    cases write with
    | column kind value =>
      have hkind : c.kind ≠ kind := by
        rintro hkind
        exact ht (by rw [hkind]; rfl)
      rw [Settings.put]
      dsimp only
      rwa [Function.update_of_ne hkind]
    | provider id p => exact h

end Apply

/-! ## Rows that the service writes -/

/-- `NewChange`, with the one who asks. -/
structure NewChange where
  kind : Kind
  targetKey : Option Text
  summary : Text
  payload : Value
  before : Value
  requestedBy : Text

/-- The row of `insertChange`. -/
def inserted (n : NewChange) (id : Text) (deciders : List Text) (now : ℤ) : SecurityChange :=
  let route := changeRoute deciders n.requestedBy now
  { id, kind := n.kind, targetKey := n.targetKey, summary := n.summary, payload := n.payload,
    before := n.before, status := route.status, requestedBy := some n.requestedBy,
    requestedAt := now, applyAfter := route.applyAfter, permitUntil := route.permitUntil,
    decidedBy := none, decidedAt := none, decisionNote := none, appliedAt := none,
    cancelledBy := none, cancelledAt := none }

/-- The open requests of a kind for a target. -/
def openOfKind (changes : List SecurityChange) (kind : Kind) (targetKey : Option Text) (now : ℤ) :
    List SecurityChange :=
  changes.filter fun c => c.kind = kind ∧ c.targetKey = targetKey ∧
    c.status ∈ [Status.pending, .waiting, .approved] ∧ isOpen c now = true

/-- The row that `decideSecurityChange` leaves. -/
def SecurityChange.decided (c : SecurityChange) (userId : Text) (note : Option Text) (now : ℤ)
    (status : Status) : SecurityChange :=
  { c with
    decidedBy := some userId
    decidedAt := some now
    decisionNote := note
    status
    appliedAt := if status = .applied then some now else none
    permitUntil := if status = .approved then some (now + permitMs) else c.permitUntil }

/-- The row that `applyDueChanges` leaves. -/
def SecurityChange.handled (c : SecurityChange) (now : ℤ) (status : Status) : SecurityChange :=
  { c with status, appliedAt := if status = .applied then some now else none }

def SecurityChange.cancelledRow (c : SecurityChange) (userId : Text) (now : ℤ) : SecurityChange :=
  { c with status := .cancelled, cancelledBy := some userId, cancelledAt := some now }

/-- The row that `redeemPermit` leaves. -/
def SecurityChange.redeemedRow (c : SecurityChange) (now : ℤ) : SecurityChange :=
  { c with status := .applied, appliedAt := some now }

/-- A permit that the one who asked for it can redeem. -/
def permitOf (changes : List SecurityChange) (kind : Kind) (targetKey : Option Text)
    (userId : Text) (now : ℤ) : Option SecurityChange :=
  (openOfKind changes kind targetKey now).find? fun c =>
    c.requestedBy = some userId ∧ changeState c now = .permitted

/-! ## What the rules say -/

theorem mem_eligibleDeciders {cs : List Candidate} {now : ℤ} {userId : Text} :
    userId ∈ eligibleDeciders cs now ↔
      ∃ c ∈ cs, c.userId = userId ∧ deciderTenureMs ≤ now - c.since := by
  simp only [eligibleDeciders, List.mem_eraseDups, List.mem_map, List.mem_filter, decide_eq_true_eq]
  constructor
  · rintro ⟨c, ⟨hc, ht⟩, rfl⟩
    exact ⟨c, hc, rfl, ht⟩
  · rintro ⟨c, hc, rfl, ht⟩
    exact ⟨c, ⟨hc, ht⟩, rfl⟩

theorem others_eq_nil_iff {deciders : List Text} {requester : Text} :
    others deciders requester = [] ↔ ∀ d ∈ deciders, d = requester := by
  simp [others, List.filter_eq_nil_iff]

theorem canDecideChange_none {c : SecurityChange} {userId : Text} {deciders : List Text} {now : ℤ}
    (h : canDecideChange c userId deciders now = none) :
    changeState c now = .pending ∧ c.requestedBy ≠ some userId ∧ userId ∈ deciders := by
  unfold canDecideChange at h
  split at h
  · cases h
  · split at h
    · cases h
    · split at h
      · cases h
      · rename_i h1 h2 h3
        exact ⟨not_not.mp h1, h2, not_not.mp h3⟩

/-- A pending state is a pending status, and a due one that of a waiting change whose time has
come. -/
theorem status_of_pending {c : SecurityChange} {now : ℤ} (h : changeState c now = .pending) :
    c.status = .pending := by
  unfold changeState permitState at h
  split at h <;> rename_i hs
  · exact hs
  · split at h
    · cases h
    · split at h
      · cases h
      · split at h <;> cases h
  · split at h <;> cases h
  · cases h
  · cases h
  · cases h
  · cases h

theorem status_of_due {c : SecurityChange} {now : ℤ} (h : changeState c now = .due) :
    c.status = .waiting ∧ isApplyKind c.kind = true ∧ ∀ t, c.applyAfter = some t → t ≤ now := by
  unfold changeState permitState at h
  split at h <;> rename_i hs
  · split at h <;> cases h
  · split at h
    · cases h
    · rename_i hwait
      split at h
      · rename_i hkind
        refine ⟨hs, hkind, ?_⟩
        intro t ht
        rw [ht] at hwait
        simpa using hwait
      · split at h <;> cases h
  · split at h <;> cases h
  · cases h
  · cases h
  · cases h
  · cases h

theorem status_of_permitted {c : SecurityChange} {now : ℤ} (h : changeState c now = .permitted) :
    c.status = .waiting ∨ c.status = .approved := by
  unfold changeState at h
  split at h <;> rename_i hs
  · split at h <;> cases h
  · exact .inl hs
  · exact .inr hs
  · cases h
  · cases h
  · cases h
  · cases h

theorem status_of_open {c : SecurityChange} {now : ℤ} (h : isOpen c now = true) :
    c.status = .pending ∨ c.status = .waiting ∨ c.status = .approved := by
  unfold isOpen openStates at h
  cases hs : c.status with
  | pending => exact .inl rfl
  | waiting => exact .inr (.inl rfl)
  | approved => exact .inr (.inr rfl)
  | applied => simp [changeState, hs] at h
  | rejected => simp [changeState, hs] at h
  | cancelled => simp [changeState, hs] at h
  | expired => simp [changeState, hs] at h

end Klick.SecurityChanges
