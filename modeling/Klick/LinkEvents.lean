-- The events of the export contract (`lib/wallet-link/events.ts`) and their
-- envelope (`lib/wallet-link/contract.ts`). The texts of the issues are left out.
import Klick.Coercion
import Klick.Fields
import Klick.Networks
import Klick.Schema
import Klick.Utf8

open Js

namespace Klick

/-! ## Schemas -/

def texts (values : List String) : List Text := values.map js

def eventFields (fs : List (String × Schema)) : Schema := .object (fs.map fun f => (js f.1, f.2))

/-- `/^\d{1,78}$/` -/
def isBaseUnits (t : Text) : Bool := 1 ≤ t.length && t.length ≤ 78 && t.all isDigit

def iso : Schema := .format Schema.isIsoDatetime
def baseUnits : Schema := .format isBaseUnits
def eventId : Schema := .format Schema.isUuid
def eventText : Schema := .text 200
def eventNetwork : Schema :=
  .oneOf (texts ["bitcoin_signet", "bitcoin_mainnet", "ethereum_sepolia", "ethereum_mainnet"])
def eventAssets : List Text := texts ["BTC", "ETH", "USDC", "EURC"]
def eventAsset : Schema := .oneOf eventAssets
def eventRev : Schema := .int 1
def eventFingerprint : Schema := .format (isHex 8)

def screeningResults : List Text := texts ["unchecked", "clear", "hit"]

def orgUpdated : Schema :=
  eventFields
    [("org", eventFields [("id", eventId), ("name", eventText), ("slug", .text 60)]),
      ("custodyMode", .oneOf (texts ["none", "own", "licensed"])),
      ("isOperator", .bool),
      ("caspLicenceRef", .nullable eventText),
      ("rev", eventRev)]

def accountUpserted : Schema :=
  eventFields
    [("account", eventFields
        [("id", eventId),
          ("name", eventText),
          ("network", eventNetwork),
          ("kind", .oneOf (texts ["hot", "cold"])),
          ("purpose", .oneOf (texts ["own", "client"])),
          ("keyFingerprint", eventFingerprint),
          ("firstAddress", .nullable (.text 120)),
          ("status", .oneOf (texts ["active", "retired"])),
          ("createdAt", iso)]),
      ("rev", eventRev)]

def transferUpserted : Schema :=
  eventFields
    [("transfer", eventFields
        [("id", eventId),
          ("accountId", eventId),
          ("network", eventNetwork),
          ("direction", .oneOf (texts ["in", "out"])),
          ("asset", eventAsset),
          ("amount", baseUnits),
          ("txid", .text 130),
          ("outputRef", .text 80),
          ("address", .text 120),
          ("counterparty", .nullable (.text 120)),
          ("blockHeight", .nullable (.int 0)),
          ("blockHash", .nullable (.text 130)),
          ("blockTime", .nullable iso),
          ("confirmations", .int 0),
          ("status", .oneOf (texts ["pending", "confirmed", "dropped"])),
          ("screening", .oneOf screeningResults),
          ("frozen", .bool),
          ("payoutId", .nullable eventId),
          ("firstSeenAt", iso),
          ("confirmedAt", .nullable iso)]),
      ("rev", eventRev)]

def payoutUpserted : Schema :=
  eventFields
    [("payout", eventFields
        [("id", eventId),
          ("accountId", eventId),
          ("network", eventNetwork),
          ("asset", eventAsset),
          ("amount", baseUnits),
          ("destination", .text 120),
          ("destinationLabel", eventText),
          ("speed", .oneOf (texts ["slow", "normal", "fast"])),
          ("status", .oneOf (texts ["awaiting_approval", "approved", "signed", "broadcast",
            "confirmed", "dropped", "failed", "cancelled", "expired"])),
          ("intentId", .text 80),
          ("feeCap", baseUnits),
          ("fee", .nullable baseUnits),
          ("txid", .nullable (.text 130)),
          ("txids", .array 50 (.text 130)),
          ("createdAt", iso),
          ("approvedAt", .nullable iso),
          ("signedAt", .nullable iso),
          ("broadcastAt", .nullable iso),
          ("confirmedAt", .nullable iso)]),
      ("rev", eventRev)]

def destinationUpserted : Schema :=
  eventFields
    [("destination", eventFields
        [("id", eventId),
          ("network", eventNetwork),
          ("address", .text 120),
          ("label", eventText),
          ("status", .oneOf (texts ["proposed", "cooling", "active", "vetoed", "expired"])),
          ("screening", .oneOf screeningResults),
          ("approvedAt", .nullable iso),
          ("activeFrom", .nullable iso),
          ("vetoedAt", .nullable iso),
          ("vetoReason", .nullable (.text 300)),
          ("createdAt", iso)]),
      ("rev", eventRev)]

/-- `balance` -/
def eventBalance : Schema := eventFields [("confirmed", baseUnits), ("pending", baseUnits)]

/-- An account of a closed day. -/
def dayClosedAccount : Schema :=
  eventFields
    [("accountId", eventId),
      ("network", eventNetwork),
      ("balances", .partialRecord eventAssets eventBalance),
      ("height", .nullable (.int 0)),
      ("hash", .nullable (.text 130)),
      ("at", .nullable iso),
      ("frozen", .partialRecord eventAssets baseUnits)]

def dayClosed : Schema :=
  eventFields
    [("date", .format Schema.isIsoDate),
      ("timeZone", .oneOf (texts ["Europe/Berlin"])),
      ("closedAt", iso),
      ("accounts", .array 500 dayClosedAccount),
      ("screening", eventFields [("clear", .int 0), ("hit", .int 0), ("unchecked", .int 0)])]

def ceremonyRecorded : Schema :=
  eventFields
    [("recordedAt", iso),
      ("reason", .oneOf (texts ["initialised", "policy_changed", "keys_changed"])),
      ("policy", eventFields
        [("version", .int 0), ("mode", .text 40), ("hash", .nullable (.text 130))]),
      ("keys", eventFields [("active", .int 0), ("persons", .int 0)]),
      ("networks", .array 10 eventNetwork),
      ("fingerprints", .partialRecord
        (texts ["bitcoin_signet", "bitcoin_mainnet", "ethereum_sepolia", "ethereum_mainnet"])
        eventFingerprint)]

def screeningListUpdated : Schema :=
  eventFields
    [("source", .oneOf (texts ["ofac"])),
      ("listVersion", eventText),
      ("total", .int 0),
      ("importedAt", iso)]

def alertCodes : List Text :=
  texts ["unknown_spend", "journal_regressed", "sanctions_hit", "manual_stop", "signer_frozen",
    "signer_unreachable", "node_mismatch"]

def alertRaised : Schema :=
  eventFields
    [("alertId", .text 120),
      ("code", .oneOf alertCodes),
      ("severity", .oneOf (texts ["critical", "high", "medium"])),
      ("title", eventText),
      ("detail", .text 1000),
      ("subject", .nullable (eventFields
        [("kind", .oneOf (texts ["account", "transfer", "payout", "destination", "signer"])),
          ("id", .text 120)])),
      ("raisedAt", iso)]

def alertResolved : Schema :=
  eventFields
    [("alertId", .text 120),
      ("code", .oneOf alertCodes),
      ("resolvedAt", iso),
      ("note", .nullable (.text 300))]

def heartbeat : Schema :=
  eventFields
    [("at", iso),
      ("signer", .oneOf (texts ["off", "ready", "frozen", "unreachable", "uninitialized",
        "other_org"])),
      ("nodes", .array 10 (eventFields
        [("network", eventNetwork), ("height", .nullable (.int 0)), ("syncedAt", .nullable iso)])),
      ("pending", .int 0)]

inductive LinkEventType
  | orgUpdated | accountUpserted | transferUpserted | payoutUpserted | destinationUpserted
  | dayClosed | ceremonyRecorded | screeningListUpdated | alertRaised | alertResolved | heartbeat
deriving DecidableEq, Repr

def LinkEventType.all : List LinkEventType :=
  [.orgUpdated, .accountUpserted, .transferUpserted, .payoutUpserted, .destinationUpserted,
    .dayClosed, .ceremonyRecorded, .screeningListUpdated, .alertRaised, .alertResolved, .heartbeat]

def LinkEventType.text : LinkEventType → Text
  | .orgUpdated => js "org.updated"
  | .accountUpserted => js "account.upserted"
  | .transferUpserted => js "transfer.upserted"
  | .payoutUpserted => js "payout.upserted"
  | .destinationUpserted => js "destination.upserted"
  | .dayClosed => js "day.closed"
  | .ceremonyRecorded => js "ceremony.recorded"
  | .screeningListUpdated => js "screening.list_updated"
  | .alertRaised => js "alert.raised"
  | .alertResolved => js "alert.resolved"
  | .heartbeat => js "heartbeat"

/-- `EVENT_DATA` -/
def LinkEventType.schema : LinkEventType → Schema
  | .orgUpdated => Klick.orgUpdated
  | .accountUpserted => Klick.accountUpserted
  | .transferUpserted => Klick.transferUpserted
  | .payoutUpserted => Klick.payoutUpserted
  | .destinationUpserted => Klick.destinationUpserted
  | .dayClosed => Klick.dayClosed
  | .ceremonyRecorded => Klick.ceremonyRecorded
  | .screeningListUpdated => Klick.screeningListUpdated
  | .alertRaised => Klick.alertRaised
  | .alertResolved => Klick.alertResolved
  | .heartbeat => Klick.heartbeat

/-- The entry of `EVENT_DATA` under a name. -/
def eventTypeOf (v : Text) : Option LinkEventType := LinkEventType.all.find? fun t => t.text = v

/-- `EVENT_TYPES` -/
def eventTypes : List Text := LinkEventType.all.map LinkEventType.text

/-- `v in EVENT_DATA`, which also finds what every object has. -/
def isEventType (v : Text) : Bool := v ∈ eventTypes || v ∈ objectMembers

/-! ## The envelope -/

/-- `CONTRACT` -/
def contract : Text := js "klick-wallet-link"

/-- `MAX_BATCH` -/
def maxBatch : ℕ := 200

/-- `MAX_BODY_BYTES` -/
def maxBodyBytes : ℕ := 1000000

/-- `[a-z_]+` -/
def isTypeWord (t : Text) : Bool :=
  t ≠ [] && t.all fun u => (97 ≤ u.toNat && u.toNat ≤ 122) || u = ch '_'

/-- `/^[a-z_]+(\.[a-z_]+)?$/`, at most 60 code units. -/
def isTypeName (t : Text) : Bool :=
  let parts := t.splitOn (ch '.')
  parts.all isTypeWord && parts.length ≤ 2 && t.length ≤ 60

/-- An event whose data is not yet read. -/
structure RawEvent where
  id : Text
  seq : ℤ
  type : Text
  occurredAt : Text
  data : Value

/-- What the schema of a batch admits as an event. -/
structure RawEvent.Admitted (e : RawEvent) : Prop where
  id : Schema.isUuid e.id = true
  seq : 1 ≤ e.seq ∧ e.seq ≤ maxSafe
  type : isTypeName e.type = true
  occurredAt : Schema.isIsoDatetime e.occurredAt = true

/-- A batch that its schema accepts. -/
structure Batch where
  walletOrgId : Text
  linkId : Text
  batchId : Text
  sentAt : Text
  events : List RawEvent
  admitted : ∀ e ∈ events, e.Admitted
  count : 1 ≤ events.length ∧ events.length ≤ maxBatch
  ascending : (events.map (·.seq)).Pairwise (· < ·)
  ids : (events.map (·.id)).Nodup

/-- What `parseEventData` returns. -/
inductive ParsedEvent
  | event (type : LinkEventType) (data : Value)
  | unknownType
  | invalid

/-- `parseEventData`. What every object has is no schema: it has no `safeParse`. -/
def parseEventData (e : RawEvent) : Except Exn ParsedEvent :=
  if !isEventType e.type then .ok .unknownType
  else match eventTypeOf e.type with
  | none => .error .typeError
  | some type =>
    match type.schema.parse e.data with
    | none => .ok .invalid
    | some data => .ok (.event type data)

/-! ## Checksums -/

mutual
/-- `canonicalJson` of `lib/audit-hash.ts`: sorted keys, undefined fields left out. -/
def auditJson : Value → Text
  | .undefined => js "null"
  | .null => js "null"
  | .bool b => if b then js "true" else js "false"
  | .num n => if (n matches .fin _) then n.toText else js "null"
  | .str t => quote t
  | .arr vs => ch '[' :: (join (ch ',') (auditItems vs) ++ [ch ']'])
  | .obj fs =>
    ch '{' :: (join (ch ',') ((sortByKey (auditFields fs)).map fun p => quote p.1 ++ ch ':' :: p.2) ++
      [ch '}'])
def auditItems : List Value → List Text
  | [] => []
  | v :: vs => auditJson v :: auditItems vs
def auditFields : List (Text × Value) → List (Text × Text)
  | [] => []
  | (_, .undefined) :: fs => auditFields fs
  | (k, v) :: fs => (k, auditJson v) :: auditFields fs
end

/-- `eventHash` over a hash of bytes. -/
def eventHash (sha256 : Bytes → Text) (e : RawEvent) : Text :=
  sha256 (utf8 (auditJson (.obj (named
    [("id", .str e.id), ("seq", .int e.seq), ("type", .str e.type),
      ("occurredAt", .str e.occurredAt), ("data", e.data)]))))

end Klick
