-- The commands of the signer that create and approve intents and mandates,
-- and those that brake (`signer/service.ts`). Each decides by the state and
-- one reading of the clock.
import Klick.Service

open Js

namespace Klick

/-! ## Arguments -/

/-- `raw.k` -/
def arg (a : Value) (k : String) : Value := a.get (js k)

/-- `obj(raw)` -/
def argsOf (call : Call) : Except Failure Value := obj call.args.value (js "args")

/-- `typeof v === "string" ? v : ""` -/
def textOrEmpty (v : Value) : Text :=
  match v with
  | .str t => t
  | _ => []

def internal {ε α : Type} (v : Except ε α) : Except Failure α := v.mapError fun _ => .internal

/-! ## Accounts -/

def accountCreate (P : Platform) (g : Signer) (call : Call) : Except Failure Decision := do
  let a ← argsOf call
  let (init, _) ← requireInit g.state
  let orgId ← uuid (arg a "orgId") (js "orgId")
  check (orgId = init.orgId) (refuse "wrong_org")
  let accountId ← uuid (arg a "accountId") (js "accountId")
  let net ← networkArg (arg a "network")
  let fingerprint ← orRefuse (g.keys.fingerprint P.keys net) (refuse "network_unknown")
  match g.state.accounts.get accountId with
  | some existing => do
    check (existing.network = net) (refuse "account_network")
    return .answer (object (accountFields existing ++ [("fingerprint", .str fingerprint)]))
  | none => do
    let index := (g.state.nextIndex net).getD 0
    let xpub ← internal (g.keys.accountXpub P.keys net index)
    return .recordThen (.account accountId net index xpub) fun _ =>
      object (accountFields ⟨accountId, net, index, xpub⟩ ++ [("fingerprint", .str fingerprint)])

/-! ## Intents -/

def checkNetwork (P : Platform) (g : Signer) (net : WalletNetwork) (policy : Policy) :
    Except Failure Unit := do
  check (policy.includesNetwork net) (refuse "network_off")
  check (!net.live) (refuse "live_off")
  check (g.keys.fingerprint P.keys net).isSome (refuse "network_unknown")

def intentOf (s : SignerState) (raw : Value) : Except Failure IntentRecord := do
  let id ← hex128 raw (js "intentId")
  orRefuse (s.intents.get id) (refuse "intent_unknown")

def mandateOf (s : SignerState) (raw : Value) : Except Failure MandateRecord := do
  let id ← uuid raw (js "mandateId")
  orRefuse (s.mandates.get id) (refuse "mandate_unknown")

def SpendCheck.code : SpendCheck → String
  | .ok => "ok"
  | .assetNotAllowed => "asset_not_allowed"
  | .perPayout => "per_payout"
  | .perDay => "per_day"

def MandateUse.code : MandateUse → String
  | .ok => "mandate_ok"
  | .grantee => "mandate_grantee"
  | .network => "mandate_network"
  | .asset => "mandate_asset"
  | .destination => "mandate_destination"
  | .notYet => "mandate_not_yet"
  | .expired => "mandate_expired"
  | .perPayout => "mandate_per_payout"
  | .total => "mandate_total"

/-- The destination is whitelisted already, or waits for it. -/
def takesDestination (net : WalletNetwork) (destination : Text) (now : ℤ) (r : IntentRecord) :
    Bool :=
  r.intent.kind = .whitelist && r.intent.network = net && r.intent.destination = destination &&
    !r.vetoed && !r.cancelled && (r.approvedAt.isSome || now ≤ r.intent.expiresAt)

/-- The fresh numbers of an intent. -/
structure FreshIntent where
  initiator : Text
  intentId : Text
  nonce : Text

def whitelistIntent (P : Platform) (g : Signer) (init : InitRecord) (policy : Policy) (now : ℤ)
    (fresh : FreshIntent) (a : Value) : Except Failure Intent := do
  let net ← networkArg (arg a "network")
  checkNetwork P g net policy
  let destination := textOrEmpty (arg a "destination")
  check (!g.state.intents.values.any (takesDestination net destination now))
    (refuse "destination_exists")
  return {
    kind := .whitelist
    orgId := init.orgId
    accountId := none
    network := net
    chainId := net.chainId
    asset := none
    amount := none
    destination := destination
    destinationActiveSince := none
    feeCap := none
    initiator := fresh.initiator
    intentId := fresh.intentId
    nonce := fresh.nonce
    expiresAt := plus now whitelistTtl }

/-- A mandate that approves the payout beforehand, where one is named. -/
def payoutMandate (s : SignerState) (now : ℤ) (initiator : Text) (net : WalletNetwork)
    (code : AssetCode) (amount : ℕ) (destination : Text) (raw : Value) :
    Except Failure (Option MandateRecord) :=
  match raw with
  | .undefined => .ok none
  | raw => do
    let m ← mandateOf s raw
    check (mandateQuorum s m) (refuse "mandate_not_approved")
    let use := mandateCovers m.mandate
      ⟨initiator, net, code, amount, destination, now, mandateUsed s m.mandateId now⟩
    check (use = .ok) (refuse use.code)
    return some m

def payoutIntent (P : Platform) (g : Signer) (init : InitRecord) (policy : Policy) (now : ℤ)
    (fresh : FreshIntent) (a : Value) : Except Failure (Intent × Option MandateRecord) := do
  let accountId ← uuid (arg a "accountId") (js "accountId")
  let account ← orRefuse (g.state.accounts.get accountId) (refuse "account_unknown")
  let net := account.network
  checkNetwork P g net policy
  let code ← assetArg net (arg a "asset")
  let amount ← posUint (arg a "amount") (js "amount")
  let feeCap ← uint (arg a "feeCap") (js "feeCap")
  let ceiling ← coerced (feeCeiling net policy)
  check (feeCap ≤ ceiling) (refuse "fee_cap")
  let allowed ← coerced (spendAllowed policy code amount 0)
  check (allowed = .ok) (refuse allowed.code)
  let destination := textOrEmpty (arg a "destination")
  let active ← orRefuse (activeDestination g.state net destination now)
    (refuse "destination_inactive")
  let mandate ← payoutMandate g.state now fresh.initiator net code amount destination
    (arg a "mandateId")
  return ({
    kind := .payout
    orgId := init.orgId
    accountId := some accountId
    network := net
    chainId := net.chainId
    asset := some code
    amount := some amount
    destination := destination
    destinationActiveSince := active.activeFrom
    feeCap := some feeCap
    initiator := fresh.initiator
    intentId := fresh.intentId
    nonce := fresh.nonce
    expiresAt := plus now payoutTtl }, mandate)

/-- `a.kind === kind` -/
def kindIs (a : Value) (kind : IntentKind) : Bool := (arg a "kind").same (.str kind.text)

/-- The intent of a request, by its kind, and the mandate that approves it. -/
def draftIntent (P : Platform) (g : Signer) (init : InitRecord) (policy : Policy) (now : ℤ)
    (fresh : FreshIntent) (a : Value) : Except Failure (Intent × Option MandateRecord) :=
  if kindIs a .whitelist then
    (whitelistIntent P g init policy now fresh a).map fun intent => (intent, none)
  else if kindIs a .payout then payoutIntent P g init policy now fresh a
  else .error (bad (js "kind"))

def intentCreate (P : Platform) (g : Signer) (call : Call) : Except Failure Decision := do
  let a ← argsOf call
  let (init, policy) ← requireInit g.state
  requireNotFrozen g.state
  let now := call.clock.now
  let all := g.state.intents.values
  check ((all.filter fun r => isOpen r now).length < maxOpen) (refuse "too_many_open")
  check ((all.filter fun r => plus now (-86400) < r.createdAt).length < maxPerDay)
    (refuse "too_many_today")
  let initiator ← uuid (arg a "initiator") (js "initiator")
  let fresh : FreshIntent := ⟨initiator, call.randomHex 0 16, call.randomHex 1 16⟩
  let (intent, mandate) ← draftIntent P g init policy now fresh a
  let text ← (encodeIntent P.addresses intent).mapError fun field => bad (js field)
  let mandateId := mandate.map (·.mandateId)
  return .recordThen (.intent fresh.intentId text (mandateId.filter (· ≠ []))) fun _ =>
    object [("intentId", .str fresh.intentId), ("text", .str text),
      ("challenge", .str (toBase64Url (challengeOf P text))), ("expiresAt", .int intent.expiresAt),
      ("approved", .bool mandate.isSome)]

def intentGet (P : Platform) (g : Signer) (call : Call) : Except Failure Decision := do
  let a ← argsOf call
  let (init, _) ← requireInit g.state
  let r ← intentOf g.state (arg a "intentId")
  return .answer (object (intentFields r ++ [("rpId", .str init.rpId),
    ("challenge", .str (toBase64Url (challengeOf P r.text))),
    ("allowCredentials", allowCredentials g.state), ("frozen", .bool g.state.frozen.isSome)]))

/-- The failure of a WebAuthn check names its code; other errors stay as they are. -/
def webauthn {α : Type} (v : Except WebAuthnThrown α) : Except Failure α :=
  v.mapError fun e =>
    match e with
    | .failure code => .signer "webauthn" (some (js code.code))
    | .exn e => .thrown e
    | .crypto => .internal

/-- The counter of an assertion about a canonical text, by an active key. -/
def checkAssertion (P : Platform) (init : InitRecord) (key : KeyRecord) (text : Text) (a : Value) :
    Except Failure ℕ := do
  let authenticatorData ← b64uStr (arg a "authenticatorData") (js "authenticatorData") 4096
  let clientDataJSON ← b64uStr (arg a "clientDataJSON") (js "clientDataJSON") 4096
  let signature ← b64uStr (arg a "signature") (js "signature") 200
  webauthn (verifyAssertion P.crypto ⟨authenticatorData, clientDataJSON, signature⟩
    ⟨init.rpId, init.origin, challengeOf P text, key.spki, key.counter⟩)

/-- `keys.get(credId)` of an active key. -/
def activeKey (s : SignerState) (credId : Text) : Except Failure KeyRecord := do
  let key ← orRefuse (s.keys.get credId) (refuse "key_unknown")
  check key.active (refuse "key_unknown")
  return key

def approve (P : Platform) (g : Signer) (call : Call) : Except Failure Decision := do
  let a ← argsOf call
  let (init, _) ← requireInit g.state
  requireNotFrozen g.state
  let r ← intentOf g.state (arg a "intentId")
  let now := call.clock.now
  check (!r.cancelled && !r.vetoed) (refuse "intent_closed")
  check (now ≤ r.intent.expiresAt) (refuse "intent_expired")
  check r.mandateId.isNone (refuse "mandate_intent")
  let credId ← b64uStr (arg a "credId") (js "credId") 1400
  let key ← activeKey g.state credId
  check (!r.approvals.any fun x => x.credId = credId) (refuse "already_approved")
  let counter ← checkAssertion P init key r.text a
  return .recordThen (.approval r.intentId credId key.person counter) (intentViewAt r.intentId)

def intentCancel (origin : By) (g : Signer) (call : Call) : Except Failure Decision := do
  let a ← argsOf call
  let r ← intentOf g.state (arg a "intentId")
  check (r.signatures = []) (refuse "already_signed")
  if r.cancelled then return .answer (intentView r)
  else return .recordThen (.cancel r.intentId origin) (intentViewAt r.intentId)

def whitelistVeto (g : Signer) (call : Call) : Except Failure Decision := do
  let a ← argsOf call
  let r ← intentOf g.state (arg a "intentId")
  check (r.intent.kind = .whitelist) (refuse "not_whitelist")
  if r.vetoed then return .answer (intentView r)
  else return .recordThen (.veto r.intentId) (intentViewAt r.intentId)

/-! ## Mandates -/

/-- `mandateGet({ mandateId })`, by a reading of the clock of its own. -/
def mandateGetValue (P : Platform) (s : SignerState) (now : ℤ) (raw : Value) :
    Except Failure Value := do
  let (init, _) ← requireInit s
  let m ← mandateOf s raw
  return object (mandateFields s m now ++ [("kind", .text "mandate"), ("rpId", .str init.rpId),
    ("challenge", .str (toBase64Url (challengeOf P m.text))),
    ("expiresAt", .int (min (plus m.createdAt mandateTtl) m.mandate.validUntil)),
    ("allowCredentials", allowCredentials s), ("frozen", .bool s.frozen.isSome)])

def mandateGet (P : Platform) (g : Signer) (call : Call) : Except Failure Decision := do
  let a ← argsOf call
  let v ← mandateGetValue P g.state call.clock.now (arg a "mandateId")
  return .answer v

/-- The mandate waits for its approval. -/
def isPending (now : ℤ) (x : MandateRecord) : Bool :=
  x.approvedAt.isNone && !x.revoked && now ≤ plus x.createdAt mandateTtl

def mandateCreate (P : Platform) (g : Signer) (call : Call) : Except Failure Decision := do
  let a ← argsOf call
  let (init, policy) ← requireInit g.state
  requireNotFrozen g.state
  let now := call.clock.now
  let text := textOrEmpty (arg a "text")
  let m ← (parseMandate P.addresses text).mapError fun field => bad (js field)
  check (m.orgId = init.orgId) (refuse "wrong_org")
  match g.state.mandates.get m.mandateId with
  | some existing => do
    check (existing.text = text) (refuse "mandate_exists")
    let v ← mandateGetValue P g.state call.clock.after (.str m.mandateId)
    return .answer v
  | none => do
    checkNetwork P g m.network policy
    check (policy.limit m.asset).truthy (refuse "asset_not_allowed")
    check (now < m.validUntil) (refuse "mandate_expired")
    check (m.destinations.all fun d => (activeDestination g.state m.network d now).isSome)
      (refuse "destination_inactive")
    check ((g.state.mandates.values.filter (isPending now)).length < maxOpen)
      (refuse "too_many_open")
    return ⟨some (.mandate m.mandateId text), fun g =>
      mandateGetValue P g.state call.clock.after (.str m.mandateId)⟩

def mandateApprove (P : Platform) (g : Signer) (call : Call) : Except Failure Decision := do
  let a ← argsOf call
  let (init, _) ← requireInit g.state
  requireNotFrozen g.state
  let m ← mandateOf g.state (arg a "mandateId")
  let now := call.clock.now
  check (!m.revoked) (refuse "mandate_revoked")
  check (now < m.mandate.validUntil) (refuse "mandate_expired")
  check (m.approvedAt.isSome || now ≤ plus m.createdAt mandateTtl) (refuse "mandate_expired")
  let credId ← b64uStr (arg a "credId") (js "credId") 1400
  let key ← activeKey g.state credId
  check (key.person ≠ m.mandate.grantee) (refuse "mandate_self")
  check (!m.approvals.any fun x => x.credId = credId) (refuse "already_approved")
  let counter ← checkAssertion P init key m.text a
  return .recordThen (.mandateApproval m.mandateId credId key.person counter)
    (mandateViewAt m.mandateId now)

def mandateRevoke (origin : By) (g : Signer) (call : Call) : Except Failure Decision := do
  let a ← argsOf call
  let m ← mandateOf g.state (arg a "mandateId")
  if m.revoked then return .answer (mandateView g.state m call.clock.after)
  else
    return .recordThen (.mandateRevoked m.mandateId origin)
      (mandateViewAt m.mandateId call.clock.after)

/-! ## Braking -/

def freeze (P : Platform) (origin : By) (g : Signer) (call : Call) : Except Failure Decision := do
  let a ← argsOf call
  let reason ← shortText P.printable (arg a "reason") (js "reason") 200
  let _ ← requireInit g.state
  let reply := fun g : Signer => object [("frozen", frozenValue g.state.frozen)]
  match g.state.frozen with
  | some _ => return .answer (reply g)
  | none => return .recordThen (.freeze reason origin) reply

/-- What policyIssues finds, as the detail of the error. -/
def PolicyIssue.code : PolicyIssue → String
  | .version => "version"
  | .mode => "mode"
  | .soloKeys => "solo_keys"
  | .delay => "delay"
  | .cooldown => "cooldown"
  | .window => "window"
  | .limits => "limits"
  | .feeCaps => "fee_caps"
  | .networks => "networks"
  | .live => "live"

/-- The next policy: the next version, chained to the hash of this one, without issues. -/
def checkPolicyChain (P : Platform) (g : Signer) (next : Value) (hn : next.Normal) :
    Except Failure (Policy × Policy) := do
  let (_, policy) ← requireInit g.state
  check ((arg next "version").same (.int (plus policy.version 1))) (refuse "policy_version")
  check ((arg next "prev").same (.str (policyHash P.hash policy))) (refuse "policy_prev")
  match hi : policyIssues next g.dev with
  | .error e => .error (.thrown e)
  | .ok [] => return (policy, ⟨next, hn, policyIssues_dev hi⟩)
  | .ok issues => .error (.signer "policy_invalid"
      (some (join (ch ',') (issues.map fun i => js i.code))))

/-- `obj(obj(raw).policy, "policy")` -/
def policyArg (call : Call) : Except Failure { v : Value // v.Normal } :=
  match h : call.args.value with
  | .obj fields =>
    have hn : ((Value.obj fields).get (js "policy")).Normal := (h ▸ call.args.normal).get _
    match obj ((Value.obj fields).get (js "policy")) (js "policy") with
    | .error f => .error f
    | .ok _ => .ok ⟨_, hn⟩
  | _ => .error (bad (js "args"))

def policyReply (P : Platform) (p : Policy) : Value :=
  object [("policy", p.raw), ("policyHash", .str (policyHash P.hash p))]

def policyTighten (P : Platform) (g : Signer) (call : Call) : Except Failure Decision := do
  let next ← policyArg call
  let (current, next) ← checkPolicyChain P g next.1 next.2
  let tightens ← coerced (isTightening current.raw next.raw)
  check tightens (refuse "not_tightening")
  return .recordThen (.policy next .app) fun _ => policyReply P next

def policySet (P : Platform) (g : Signer) (call : Call) : Except Failure Decision := do
  let next ← policyArg call
  let (_, next) ← checkPolicyChain P g next.1 next.2
  return .recordThen (.policy next .admin) fun _ => policyReply P next

end Klick
