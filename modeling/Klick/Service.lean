-- The signer (`signer/service.ts`): its parts, how an event is recorded, and
-- what it shows. A command decides first; what it decides on is recorded
-- before the answer.
import Klick.SignerState
import Klick.SignerPolicy
import Klick.Spend
import Klick.Validate
import Klick.WebAuthn

open Js

namespace Klick

/-! ## What the signer runs on -/

structure Platform where
  crypto : Crypto
  addresses : AddressLib
  keys : KeyLib
  btc : BtcLib
  eth : EthLib
  /-- The classes of characters of a short text. -/
  printable : Text → Bool
  /-- `new URL(origin).hostname`, which may throw. -/
  hostname : Text → Option Text

/-- The SHA-256 of the platform. -/
abbrev Platform.hash (P : Platform) : Sha256 := P.crypto.sha256

/-- Seeds that were shown and wait for their confirmation. -/
structure Prepared where
  token : Text
  entropy : OrderedMap WalletNetwork Bytes
  expiresAt : ℤ
  notLive : ∀ n ∈ entropy.entries.map Prod.fst, n.live = false

structure Signer where
  dev : Bool
  bundleHash : Option Text
  kek : Bytes
  journal : Journal
  state : SignerState
  /-- `seeds.json`, on the disk and in memory. -/
  seedFile : SeedFile
  keys : KeyRing
  prepared : Option Prepared

/-- The seconds of a `Date`. -/
def IsTime (t : ℤ) : Prop := -8640000000000 ≤ t ∧ t ≤ 8640000000000

/-- The readings of the clock during a call: by the checks, for each event, for the answer. -/
structure Clock where
  now : ℤ
  stamp : ℕ → ℤ
  after : ℤ
  isTime : IsTime now ∧ (∀ k, IsTime (stamp k)) ∧ IsTime after

/-- The random bytes of a call, by the number of the request and its size. -/
structure RandomSource where
  bytes : ℕ → ℕ → Bytes
  size : ∀ k n, (bytes k n).length = n

/-- What the world gives a call. -/
structure World where
  clock : Clock
  random : RandomSource
  /-- Whether the writing of a line goes through; else it leaves the file as it was. -/
  writes : ℕ → Bool
  /-- Whether the writing of the seeds goes through; else they stay as they were. -/
  writesSeeds : Bool
  /-- The file with the next key-encryption key, if there is one. -/
  kekNext : Option Bytes

/-- One call: its arguments, and the world. -/
structure Call extends World where
  args : Json

/-- `randomBytes(n).toString("hex")` -/
def Call.randomHex (call : Call) (k n : ℕ) : Text := toHex (call.random.bytes k n)

/-! ## Recording -/

/-- What a command comes to: its result, the signer after it, and the events it recorded. -/
structure Outcome (α : Type) where
  result : Except Failure α
  signer : Signer
  recorded : List SignerEvent

/-- A command that ends with an error and changes nothing. -/
def Outcome.refused {α : Type} (g : Signer) (f : Failure) : Outcome α := ⟨.error f, g, []⟩

/-- A command that changes nothing. -/
def Outcome.answered {α : Type} (g : Signer) (a : α) : Outcome α := ⟨.ok a, g, []⟩

/-- One part of a command after another. -/
def Outcome.andThen {α β : Type} (o : Outcome α) (f : Signer → α → Outcome β) : Outcome β :=
  match o.result with
  | .error e => ⟨.error e, o.signer, o.recorded⟩
  | .ok a => ⟨(f o.signer a).result, (f o.signer a).signer, o.recorded ++ (f o.signer a).recorded⟩

theorem Outcome.andThen_assoc {α β γ : Type} (o : Outcome α) (f : Signer → α → Outcome β)
    (f' : Signer → β → Outcome γ) : (o.andThen f).andThen f' =
      o.andThen fun g a => (f g a).andThen f' := by
  obtain ⟨result, g, recorded⟩ := o
  cases result with
  | error e => rfl
  | ok a =>
    simp only [andThen]
    cases (f g a).result with
    | error e => rfl
    | ok b => simp

/-- Append first, then fold: an event that cannot be folded is in the file already. -/
def record (P : Platform) (g : Signer) (call : Call) (k : ℕ) (body : EventBody) :
    Outcome SignerEvent :=
  match g.journal.append P.hash (body.draft (call.clock.stamp k)) with
  | .error f => .refused g (.journal f)
  | .ok (journal, entry) =>
    if !call.writes k then .refused g .write
    else
      let e : SignerEvent := ⟨entry.seq, call.clock.stamp k, body⟩
      match apply P.addresses g.state e with
      | .error _ => ⟨.error .internal, { g with journal := journal }, [e]⟩
      | .ok state => ⟨.ok e, { g with journal := journal, state := state }, [e]⟩

/-- An event to record, if any, and the answer by the signer after it. -/
structure Decision where
  event : Option EventBody
  reply : Signer → Except Failure Value

def Decision.answer (v : Value) : Decision := ⟨none, fun _ => .ok v⟩

def Decision.recordThen (body : EventBody) (reply : Signer → Value) : Decision :=
  ⟨some body, fun g => .ok (reply g)⟩

def carryOut (P : Platform) (g : Signer) (call : Call) (d : Except Failure Decision) :
    Outcome Value :=
  match d with
  | .error f => .refused g f
  | .ok ⟨none, reply⟩ => ⟨reply g, g, []⟩
  | .ok ⟨some body, reply⟩ =>
    let o := record P g call 0 body
    ⟨o.result.bind fun _ => reply o.signer, o.signer, o.recorded⟩

/-! ## Guards -/

def requireInit (s : SignerState) : Except Failure (InitRecord × Policy) :=
  match s.init, s.policy with
  | some init, some policy => .ok (init, policy)
  | _, _ => .error (refuse "not_initialized")

def requireNotFrozen (s : SignerState) : Except Failure Unit :=
  check s.frozen.isNone (refuse "frozen")

/-! ## Open intents and used frames -/

/-- `PAYOUT_TTL` -/
def payoutTtl : ℤ := 4 * 3600

/-- `WHITELIST_TTL` -/
def whitelistTtl : ℤ := 24 * 3600

/-- `MANDATE_TTL` -/
def mandateTtl : ℤ := 24 * 3600

/-- `MAX_OPEN` -/
def maxOpen : ℕ := 50

/-- `MAX_PER_DAY` -/
def maxPerDay : ℕ := 200

def isOpen (r : IntentRecord) (now : ℤ) : Bool :=
  if r.cancelled || r.vetoed then false
  else
    match r.intent.kind with
    | .whitelist => r.approvedAt.isNone && now ≤ r.intent.expiresAt
    | .payout =>
      if r.signatures ≠ [] then false
      else
        match r.approvedAt with
        | none => now ≤ r.intent.expiresAt
        | some _ => now ≤ r.signUntil.getD 0

/-- The payout counts in its mandate: signed, or still open. -/
def countsInMandate (mandateId : Text) (now : ℤ) (r : IntentRecord) : Bool :=
  r.mandateId = some mandateId && !r.cancelled && !r.vetoed && (r.signatures ≠ [] || isOpen r now)

def mandateUsed (s : SignerState) (mandateId : Text) (now : ℤ) : ℕ :=
  s.intents.sum fun r => if countsInMandate mandateId now r then r.intent.amount.getD 0 else 0

/-- The record approves a destination, its delay is over, and it was not vetoed. -/
def activatesDestination (network : WalletNetwork) (destination : Text) (now : ℤ)
    (r : IntentRecord) : Bool :=
  r.intent.kind = .whitelist && r.intent.network = network && r.intent.destination = destination &&
    !r.vetoed && !r.cancelled && r.activeFrom.any (· ≤ now)

def activeDestination (s : SignerState) (network : WalletNetwork) (destination : Text) (now : ℤ) :
    Option IntentRecord :=
  s.intents.values.find? (activatesDestination network destination now)

/-! ## Views -/

/-- An object literal. -/
def object (fields : List (String × Value)) : Value := .obj (named fields)

def textOrNull : Option Text → Value
  | some t => .str t
  | none => .null

def intOrNull : Option ℤ → Value
  | some z => .int z
  | none => .null

def Signer.headFields (g : Signer) : List (String × Value) :=
  [("seq", .int g.journal.seq), ("head", .str g.journal.head)]

def frozenValue : Option Frozen → Value
  | some f => object [("reason", .str f.reason), ("at", .int f.time), ("by", .str f.origin.text)]
  | none => .null

/-- `hello()` -/
def helloFields (P : Platform) (g : Signer) : List (String × Value) :=
  let s := g.state
  [("v", .int 1), ("initialized", .bool s.init.isSome),
    ("orgId", textOrNull (s.init.map (·.orgId))), ("rpId", textOrNull (s.init.map (·.rpId))),
    ("origin", textOrNull (s.init.map (·.origin))), ("dev", .bool g.dev),
    ("networks", .arr (g.keys.networks.map fun n => .str n.key)), ("frozen", frozenValue s.frozen),
    ("policyHash", textOrNull (s.policy.map (policyHash P.hash))),
    ("bundleHash", textOrNull g.bundleHash)] ++ g.headFields

def keyView (k : KeyRecord) : Value :=
  object [("credId", .str k.credId), ("person", .str k.person), ("active", .bool k.active),
    ("aaguid", .str k.aaguid), ("enrolledAt", .int k.enrolledAt)]

def accountFields (a : AccountRecord) : List (String × Value) :=
  [("accountId", .str a.accountId), ("network", .str a.network.key), ("index", .int a.index),
    ("xpub", .str a.xpub)]

def approvalView (a : ApprovalRecord) : Value :=
  object [("person", .str a.person), ("at", .int a.time)]

def signedView (s : Signature) : Value :=
  object [("mode", s.signed.mode.toValue), ("txid", .str s.signed.txid),
    ("fee", .str (decimal s.signed.fee)), ("at", .int s.time)]

def intentFields (r : IntentRecord) : List (String × Value) :=
  [("intentId", .str r.intentId), ("kind", .str r.intent.kind.text), ("text", .str r.text),
    ("createdAt", .int r.createdAt), ("expiresAt", .int r.intent.expiresAt),
    ("approvals", .arr (r.approvals.map approvalView)), ("approvedAt", intOrNull r.approvedAt),
    ("signableAt", intOrNull r.signableAt), ("signUntil", intOrNull r.signUntil),
    ("activeFrom", intOrNull r.activeFrom), ("cancelled", .bool r.cancelled),
    ("vetoed", .bool r.vetoed), ("signed", (r.signatures.getLast?.map signedView).getD .null),
    ("mandateId", textOrNull r.mandateId)]

def intentView (r : IntentRecord) : Value := object (intentFields r)

/-- The view of an intent after an event. -/
def intentViewAt (intentId : Text) (g : Signer) : Value :=
  (g.state.intents.get intentId).elim .null intentView

def mandateFields (s : SignerState) (m : MandateRecord) (now : ℤ) : List (String × Value) :=
  [("mandateId", .str m.mandateId), ("text", .str m.text), ("createdAt", .int m.createdAt),
    ("approvals", .arr (m.approvals.map approvalView)), ("approvedAt", intOrNull m.approvedAt),
    ("approvableUntil", match m.approvedAt with
      | none => .int (min (plus m.createdAt mandateTtl) m.mandate.validUntil)
      | some _ => .null),
    ("active", .bool (mandateQuorum s m)), ("revoked", .bool m.revoked),
    ("validUntil", .int m.mandate.validUntil),
    ("used", .str (decimal (mandateUsed s m.mandateId now)))]

def mandateView (s : SignerState) (m : MandateRecord) (now : ℤ) : Value :=
  object (mandateFields s m now)

def mandateViewAt (mandateId : Text) (now : ℤ) (g : Signer) : Value :=
  (g.state.mandates.get mandateId).elim .null fun m => mandateView g.state m now

/-- The credentials that can sign, for the confirmation page. -/
def allowCredentials (s : SignerState) : Value :=
  .arr ((s.keys.values.filter (·.active)).map fun k => .str k.credId)

def statusValue (P : Platform) (g : Signer) (now : ℤ) : Value :=
  let s := g.state
  object (helloFields P g ++ [("policy", s.policy.elim .null (·.raw)),
    ("keys", .arr (s.keys.values.map keyView)),
    ("accounts", .arr (s.accounts.values.map fun a => object (accountFields a))),
    ("openIntents", .arr ((s.intents.values.filter fun r => isOpen r now).map intentView)),
    ("mandates", .arr ((s.mandates.values.filter fun m =>
      !m.revoked && now < m.mandate.validUntil).map fun m => mandateView s m now))])

/-- `b64u.encode(challenge(text))`, the hash of a canonical text. -/
def challengeOf (P : Platform) (text : Text) : Bytes := P.hash.digest (utf8 text)

end Klick
