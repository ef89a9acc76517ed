-- The state of the signer is a fold over the events of its journal
-- (`signer/state.ts`). Each new event runs through the same function as
-- the events that are read at the start.
import Klick.Events
import Klick.Intent
import Klick.Mandate

open Js

namespace Klick

/-! ## The state -/

structure KeyRecord where
  credId : Text
  person : Text
  spki : Text
  aaguid : Text
  counter : ℕ
  active : Bool
  enrolledAt : ℤ
deriving DecidableEq, Repr

structure ApprovalRecord where
  credId : Text
  person : Text
  time : ℤ
deriving DecidableEq, Repr

/-- A signature with the number and the time of its event. -/
structure Signature where
  seq : ℕ
  time : ℤ
  signed : Signed

structure IntentRecord where
  intentId : Text
  text : Text
  intent : Intent
  createdAt : ℤ
  approvals : List ApprovalRecord
  approvedAt : Option ℤ
  /-- The first and the last time for the first signature of a payout. -/
  signableAt : Option ℤ
  signUntil : Option ℤ
  /-- When an address becomes active. -/
  activeFrom : Option ℤ
  cancelled : Bool
  vetoed : Bool
  signatures : List Signature
  /-- The mandate that has approved the payout beforehand. -/
  mandateId : Option Text

structure MandateRecord where
  mandateId : Text
  text : Text
  mandate : Mandate
  createdAt : ℤ
  approvals : List ApprovalRecord
  approvedAt : Option ℤ
  revoked : Bool

structure AccountRecord where
  accountId : Text
  network : WalletNetwork
  index : ℕ
  xpub : Text
deriving DecidableEq, Repr

structure EnrolmentRecord where
  enrolId : Text
  person : Text
  secret : Text
  expiresAt : ℤ
  done : Bool
deriving DecidableEq, Repr

structure Frozen where
  reason : Text
  time : ℤ
  origin : By
deriving DecidableEq, Repr

structure InitRecord where
  seq : ℕ
  time : ℤ
  orgId : Text
  rpId : Text
  origin : Text
  dev : Bool
  fingerprints : Fingerprints
  policy : Policy

structure SignerState where
  init : Option InitRecord
  fingerprints : Fingerprints
  policy : Option Policy
  accounts : OrderedMap Text AccountRecord
  nextIndex : WalletNetwork → Option ℕ
  enrolments : OrderedMap Text EnrolmentRecord
  keys : OrderedMap Text KeyRecord
  intents : OrderedMap Text IntentRecord
  mandates : OrderedMap Text MandateRecord
  frozen : Option Frozen
  /-- The intent whose signature spends a coin. -/
  reserved : OrderedMap Text Text
  /-- The highest nonce signed for an account. -/
  nonces : OrderedMap Text ℕ
  /-- The next index of change for an account. -/
  nextChange : OrderedMap Text ℕ

def emptyState : SignerState where
  init := none
  fingerprints := fun _ => none
  policy := none
  accounts := .empty
  nextIndex := fun _ => none
  enrolments := .empty
  keys := .empty
  intents := .empty
  mandates := .empty
  frozen := none
  reserved := .empty
  nonces := .empty
  nextChange := .empty

/-! ## Quorum -/

def activeKeysByPerson (s : SignerState) (person : Text) : ℕ :=
  (s.keys.values.filter fun k => k.active && k.person = person).length

/-- `s.keys.get(credId)?.active` -/
def isActiveKey (s : SignerState) (credId : Text) : Bool := (s.keys.get credId).any (·.active)

/-- The approvals whose keys are active now. -/
def validApprovals (s : SignerState) (approvals : List ApprovalRecord) : List ApprovalRecord :=
  approvals.filter fun a => isActiveKey s a.credId

def approvalsQuorum (s : SignerState) (approvals : List ApprovalRecord) : Bool :=
  match s.policy with
  | none => false
  | some policy =>
    approvalsSatisfied policy
      ((validApprovals s approvals).map fun a => ⟨a.person, a.credId⟩) (activeKeysByPerson s)

/-- A mandate is approved with the keys that are active now, and not revoked. -/
def mandateQuorum (s : SignerState) (m : MandateRecord) : Bool :=
  !m.revoked && approvalsQuorum s m.approvals

/-- On a mandate, its quorum counts. -/
def quorum (s : SignerState) (rec : IntentRecord) : Bool :=
  match rec.mandateId with
  | some mandateId => (s.mandates.get mandateId).any (mandateQuorum s)
  | none => approvalsQuorum s rec.approvals

/-- How long a payout waits after its approval. -/
def signDelay (policy : Policy) : ℤ :=
  match policy.mode with
  | .solo => policy.soloDelaySec
  | .fourEyes => 0

/-- Sets the times once the quorum is there, by the policy of that time. -/
def settle (s : SignerState) (rec : IntentRecord) (time : ℤ) : IntentRecord :=
  match rec.approvedAt, s.policy with
  | none, some policy =>
    if quorum s rec then
      match rec.intent.kind with
      | .payout =>
        let signableAt := plus time (signDelay policy)
        { rec with
          approvedAt := some time
          signableAt := some signableAt
          signUntil := some (plus signableAt policy.approvalWindowSec) }
      | .whitelist =>
        { rec with
          approvedAt := some time
          activeFrom := some (plus time policy.whitelistCooldownSec) }
    else rec
  | _, _ => rec

/-! ## The fold -/

/-- `m.counter = counter` -/
def setCounter (keys : OrderedMap Text KeyRecord) (credId : Text) (counter : ℕ) :
    OrderedMap Text KeyRecord :=
  keys.modify credId fun k => { k with counter := counter }

/-- The coins of a signature are reserved for its intent. -/
def reserve (reserved : OrderedMap Text Text) (outpoints : List Text) (intentId : Text) :
    OrderedMap Text Text :=
  outpoints.foldl (fun m o => m.set o intentId) reserved

/-- The nonces with one more that was signed. -/
def raiseNonce (nonces : OrderedMap Text ℕ) (accountId : Text) (nonce : ℕ) :
    OrderedMap Text ℕ :=
  match nonces.get accountId with
  | none => nonces.set accountId nonce
  | some prev => if prev < nonce then nonces.set accountId nonce else nonces

def newIntent (intentId text : Text) (intent : Intent) (mandateId : Option Text) (time : ℤ) :
    IntentRecord where
  intentId := intentId
  text := text
  intent := intent
  createdAt := time
  approvals := []
  approvedAt := none
  signableAt := none
  signUntil := none
  activeFrom := none
  cancelled := false
  vetoed := false
  signatures := []
  mandateId := mandateId

def newMandate (mandateId text : Text) (mandate : Mandate) (time : ℤ) : MandateRecord where
  mandateId := mandateId
  text := text
  mandate := mandate
  createdAt := time
  approvals := []
  approvedAt := none
  revoked := false

/-- One more approval; with it, the mandate may be approved. -/
def MandateRecord.approve (s : SignerState) (a : ApprovalRecord) (m : MandateRecord) :
    MandateRecord :=
  let m := { m with approvals := m.approvals ++ [a] }
  if m.approvedAt = none && mandateQuorum s m then { m with approvedAt := some a.time } else m

/-- `apply`; the error is the field of an intent that cannot be read. -/
def apply (A : AddressLib) (s : SignerState) (e : SignerEvent) : Except String SignerState :=
  match e.body with
  | .init orgId rpId origin dev fingerprints policy =>
    .ok { s with
      init := some ⟨e.seq, e.time, orgId, rpId, origin, dev, fingerprints, policy⟩
      fingerprints := fingerprints
      policy := some policy }
  | .networkAdded network fingerprint =>
    .ok { s with fingerprints := Function.update s.fingerprints network (some fingerprint) }
  | .account accountId network index xpub =>
    .ok { s with
      accounts := s.accounts.set accountId ⟨accountId, network, index, xpub⟩
      nextIndex := Function.update s.nextIndex network
        (some (max ((s.nextIndex network).getD 0) (index + 1))) }
  | .enrolStart enrolId person secret expiresAt =>
    .ok { s with
      enrolments := s.enrolments.set enrolId ⟨enrolId, person, secret, expiresAt, false⟩ }
  | .key enrolId person credId spki aaguid counter =>
    .ok { s with
      enrolments := s.enrolments.modify enrolId fun en => { en with done := true }
      keys := s.keys.set credId ⟨credId, person, spki, aaguid, counter, true, e.time⟩ }
  | .keyRevoked credId =>
    .ok { s with keys := s.keys.modify credId fun k => { k with active := false } }
  | .policy policy _ => .ok { s with policy := some policy }
  | .intent intentId text mandateId => do
    let intent ← parseIntent A text
    let rec' := newIntent intentId text intent mandateId e.time
    -- an empty mandate id is no mandate, and then nothing is approved yet
    let rec' := if mandateId.any (· ≠ []) then settle s rec' e.time else rec'
    return { s with intents := s.intents.set intentId rec' }
  | .approval intentId credId person counter =>
    let s := { s with keys := setCounter s.keys credId counter }
    .ok { s with
      intents := s.intents.modify intentId fun rec =>
        settle s { rec with approvals := rec.approvals ++ [⟨credId, person, e.time⟩] } e.time }
  | .cancel intentId _ =>
    .ok { s with intents := s.intents.modify intentId fun rec => { rec with cancelled := true } }
  | .veto intentId =>
    .ok { s with intents := s.intents.modify intentId fun rec => { rec with vetoed := true } }
  | .freeze reason origin => .ok { s with frozen := some ⟨reason, e.time, origin⟩ }
  | .unfreeze => .ok { s with frozen := none }
  | .signed d =>
    .ok { s with
      intents := s.intents.modify d.intentId fun rec =>
        { rec with signatures := rec.signatures ++ [⟨e.seq, e.time, d⟩] }
      reserved := reserve s.reserved d.outpoints d.intentId
      nonces := match d.nonce with
        | some nonce => raiseNonce s.nonces d.accountId nonce
        | none => s.nonces
      nextChange := match d.changeIndex with
        | some i => s.nextChange.set d.accountId
            (max ((s.nextChange.get d.accountId).getD 0) (i + 1))
        | none => s.nextChange }
  | .rekey _ => .ok s
  | .mandate mandateId text =>
    -- a text that this version does not read must not stop the start
    match parseMandate A text with
    | .error _ => .ok s
    | .ok mandate =>
      .ok { s with mandates := s.mandates.set mandateId (newMandate mandateId text mandate e.time) }
  | .mandateApproval mandateId credId person counter =>
    let s := { s with keys := setCounter s.keys credId counter }
    .ok { s with
      mandates := s.mandates.modify mandateId
        (MandateRecord.approve s ⟨credId, person, e.time⟩) }
  | .mandateRevoked mandateId _ =>
    .ok { s with mandates := s.mandates.modify mandateId fun m => { m with revoked := true } }

/-- `events.reduce(apply, s)` -/
def applyAll (A : AddressLib) (s : SignerState) : List SignerEvent → Except String SignerState
  | [] => .ok s
  | e :: es => do
    let s ← apply A s e
    applyAll A s es

def replay (A : AddressLib) (es : List SignerEvent) : Except String SignerState :=
  applyAll A emptyState es

end Klick
