-- What Klick makes of the events of a wallet (`lib/wallet-link-ingest`): the
-- rules, the effect of each event, and the receipt of a batch. Tasks,
-- incidents, notifications, audit entries and the custody register are left out.
import Klick.LinkEvents
import Klick.Registers

open Js

namespace Js

/-- The text that a field holds. -/
def Value.asText : Value → Text
  | .str t => t
  | _ => []

/-- The field of an object under a name. -/
def Value.at (v : Value) (k : String) : Value := v.get (js k)

/-- A UUID as its column holds it: in small letters. -/
def uuidText (t : Text) : Text :=
  t.map fun u => if 65 ≤ u.toNat && u.toNat ≤ 90 then u + 32 else u

def Value.uuid : Value → Value
  | .str t => .str (uuidText t)
  | v => v

/-- `new Date` of a time, in milliseconds; null stays null. -/
def Value.date : Value → Value
  | .str t => (Schema.instant t).elim .null .int
  | v => v

end Js

namespace Klick

/-! ## Tables -/

inductive LinkStatus
  | active | revoked
deriving DecidableEq, Repr

/-- A row of `wallet_links`. -/
structure WalletLink where
  id : Text
  status : LinkStatus
  walletOrgId : Option Text
  walletLinkId : Option Text
  walletOrgName : Value
  walletOrgSlug : Value
  custodyMode : Value
  isOperator : Value
  caspLicenceRef : Value
  lastSeq : ℤ
  lastDayClosed : Option Text
  ceremony : Value
  sanctionsList : Value
  heartbeat : Value

/-- What an event came to. -/
inductive StoredResult
  | accepted | ignored | rejected
deriving DecidableEq, Repr

/-- A row of `wallet_link_events`, unique by the id of its event. -/
structure StoredEvent where
  linkId : Text
  eventId : Text
  seq : ℤ
  type : Text
  hash : Text
  result : StoredResult
  code : Option Text
deriving DecidableEq

/-- A row of `crypto_alerts`. -/
structure AlertRow where
  linkId : Text
  alertId : Value
  code : Value
  severity : Value
  title : Value
  detail : Value
  subject : Value
  raisedAt : Value
  resolvedAt : Option Value

/-- What a row of `crypto_accounts` says of its account. -/
structure AccountRow where
  name : Value
  kind : Value
  purpose : Value
  firstAddress : Value
  status : Value
  network : Value
  keyFingerprint : Value
  openedAt : Value

/-- A row under the id of its link and its own, with its revision. -/
abbrev LinkRow (V : Type) := Write (Text × Text) V

/-- The tables of an organisation that its links fill. -/
structure LinkTables where
  links : List WalletLink
  events : List StoredEvent
  accounts : List (LinkRow AccountRow)
  movements : List (LinkRow Value)
  balances : List (LinkRow Value)
  payouts : List (LinkRow Value)
  alerts : List AlertRow

def LinkTables.link (t : LinkTables) (linkId : Text) : Option WalletLink :=
  t.links.find? fun l => l.id = linkId

/-- `update wallet_links set … where id = linkId` -/
def LinkTables.setLink (t : LinkTables) (linkId : Text) (f : WalletLink → WalletLink) : LinkTables :=
  { t with links := t.links.map fun l => if l.id = linkId then f l else l }

/-! ## Effects -/

def revOf (v : Value) : ℤ := (v.at "rev").int?.getD 0

/-- What a link says of the wallet's organisation. -/
structure OrgValues where
  walletOrgName : Value
  walletOrgSlug : Value
  custodyMode : Value
  isOperator : Value
  caspLicenceRef : Value

def orgValues (d : Value) : OrgValues where
  walletOrgName := (d.at "org").at "name"
  walletOrgSlug := (d.at "org").at "slug"
  custodyMode := d.at "custodyMode"
  isOperator := d.at "isOperator"
  caspLicenceRef := d.at "caspLicenceRef"

def WalletLink.withOrg (l : WalletLink) (o : OrgValues) : WalletLink :=
  { l with
    walletOrgName := o.walletOrgName
    walletOrgSlug := o.walletOrgSlug
    custodyMode := o.custodyMode
    isOperator := o.isOperator
    caspLicenceRef := o.caspLicenceRef }

/-- `applyOrgUpdated`, which compares no revisions. -/
def applyOrgUpdated (t : LinkTables) (linkId : Text) (d : Value) : LinkTables :=
  t.setLink linkId fun l => l.withOrg (orgValues d)

/-- What `applyAccount` writes when it first meets an account. -/
def accountRow (a : Value) : AccountRow where
  name := a.at "name"
  kind := a.at "kind"
  purpose := a.at "purpose"
  firstAddress := a.at "firstAddress"
  status := a.at "status"
  network := a.at "network"
  keyFingerprint := a.at "keyFingerprint"
  openedAt := (a.at "createdAt").date

/-- An update leaves network, fingerprint and opening as they were first written. -/
def mergeAccount (old new : AccountRow) : AccountRow :=
  { new with network := old.network, keyFingerprint := old.keyFingerprint, openedAt := old.openedAt }

/-- The key of a row whose own id is a UUID. -/
def rowKey (linkId : Text) (id : Value) : Text × Text := (linkId, uuidText id.asText)

def accountWrite (linkId : Text) (d : Value) : LinkRow AccountRow :=
  let a := d.at "account"
  ⟨rowKey linkId (a.at "id"), revOf d, accountRow a⟩

/-- `applyAccount` -/
def applyAccount (t : LinkTables) (linkId : Text) (d : Value) : LinkTables :=
  { t with accounts := Write.put mergeAccount t.accounts (accountWrite linkId d) }

def movementWrite (linkId : Text) (d : Value) : LinkRow Value :=
  let m := d.at "transfer"
  ⟨rowKey linkId (m.at "id"), revOf d, .obj (named
    [("walletAccountId", (m.at "accountId").uuid), ("network", m.at "network"),
      ("direction", m.at "direction"), ("asset", m.at "asset"),
      ("amount", m.at "amount"), ("txid", m.at "txid"),
      ("outputRef", m.at "outputRef"), ("address", m.at "address"),
      ("counterparty", m.at "counterparty"), ("blockHeight", m.at "blockHeight"),
      ("blockHash", m.at "blockHash"), ("blockTime", (m.at "blockTime").date),
      ("confirmations", m.at "confirmations"), ("status", m.at "status"),
      ("screening", m.at "screening"), ("frozen", m.at "frozen"),
      ("payoutId", (m.at "payoutId").uuid), ("firstSeenAt", (m.at "firstSeenAt").date),
      ("confirmedAt", (m.at "confirmedAt").date)])⟩

/-- `onConflictDoUpdate` where `excluded.rev` is greater. -/
def upsert (rows : List (LinkRow Value)) (w : LinkRow Value) : List (LinkRow Value) :=
  Write.put (fun _ new => new) rows w

/-- `applyTransfer` -/
def applyTransfer (t : LinkTables) (linkId : Text) (d : Value) : LinkTables :=
  { t with movements := upsert t.movements (movementWrite linkId d) }

def payoutWrite (linkId : Text) (d : Value) : LinkRow Value :=
  let p := d.at "payout"
  ⟨rowKey linkId (p.at "id"), revOf d, .obj (named
    [("walletAccountId", (p.at "accountId").uuid), ("network", p.at "network"),
      ("asset", p.at "asset"), ("amount", p.at "amount"),
      ("destination", p.at "destination"),
      ("destinationLabel", p.at "destinationLabel"), ("speed", p.at "speed"),
      ("status", p.at "status"), ("intentId", p.at "intentId"),
      ("feeCap", p.at "feeCap"), ("fee", p.at "fee"), ("txid", p.at "txid"),
      ("txids", p.at "txids"), ("requestedAt", (p.at "createdAt").date),
      ("approvedAt", (p.at "approvedAt").date), ("signedAt", (p.at "signedAt").date),
      ("broadcastAt", (p.at "broadcastAt").date), ("confirmedAt", (p.at "confirmedAt").date)])⟩

/-- `applyPayout` -/
def applyPayout (t : LinkTables) (linkId : Text) (d : Value) : LinkTables :=
  { t with payouts := upsert t.payouts (payoutWrite linkId d) }

/-- A closed day has no `rev`: the later `seq` wins. -/
def balanceWrite (linkId : Text) (d : Value) (seq : ℤ) : LinkRow Value :=
  ⟨(linkId, (d.at "date").asText), seq, .obj (named
    [("closedAt", (d.at "closedAt").date), ("accounts", d.at "accounts"),
      ("screening", d.at "screening")])⟩

/-- The later of a stored day and a new one; days compare as texts. -/
def laterDay (stored : Option Text) (date : Text) : Option Text :=
  match stored with
  | none => some date
  | some day => if textLe day date && day ≠ date then some date else some day

def WalletLink.withDay (l : WalletLink) (date : Text) : WalletLink :=
  { l with lastDayClosed := laterDay l.lastDayClosed date }

/-- `applyDayClosed` -/
def applyDayClosed (t : LinkTables) (linkId : Text) (d : Value) (seq : ℤ) : LinkTables :=
  let t := { t with balances := upsert t.balances (balanceWrite linkId d seq) }
  t.setLink linkId fun l => l.withDay (d.at "date").asText

/-- `applyCeremony` -/
def applyCeremony (t : LinkTables) (linkId : Text) (d : Value) : LinkTables :=
  t.setLink linkId fun l =>
    { l with ceremony := .obj (named
        [("recordedAt", d.at "recordedAt"), ("reason", d.at "reason"),
          ("policy", d.at "policy"), ("keys", d.at "keys"),
          ("networks", d.at "networks")]) }

/-- The alert of a link under an id. -/
def AlertRow.isOf (row : AlertRow) (linkId : Text) (alertId : Value) : Bool :=
  row.linkId = linkId && row.alertId.asText = alertId.asText

/-- `applyAlertRaised` -/
def applyAlertRaised (t : LinkTables) (linkId : Text) (d : Value) : LinkTables :=
  if t.alerts.any fun row => row.isOf linkId (d.at "alertId") then t
  else
    { t with alerts := t.alerts ++ [
        { linkId := linkId
          alertId := d.at "alertId"
          code := d.at "code"
          severity := d.at "severity"
          title := d.at "title"
          detail := d.at "detail"
          subject := d.at "subject"
          raisedAt := (d.at "raisedAt").date
          resolvedAt := none }] }

/-- `applyAlertResolved` -/
def applyAlertResolved (t : LinkTables) (linkId : Text) (d : Value) : LinkTables :=
  { t with alerts := t.alerts.map fun row =>
      if row.isOf linkId (d.at "alertId") && row.resolvedAt.isNone then
        { row with resolvedAt := some (d.at "resolvedAt").date }
      else row }

/-- `applyEvent` -/
def applyEvent (t : LinkTables) (linkId : Text) (type : LinkEventType) (d : Value) (seq : ℤ) :
    LinkTables :=
  match type with
  | .orgUpdated => applyOrgUpdated t linkId d
  | .accountUpserted => applyAccount t linkId d
  | .transferUpserted => applyTransfer t linkId d
  | .payoutUpserted => applyPayout t linkId d
  | .destinationUpserted => t
  | .dayClosed => applyDayClosed t linkId d seq
  | .ceremonyRecorded => applyCeremony t linkId d
  | .screeningListUpdated => t.setLink linkId fun l => { l with sanctionsList := d }
  | .alertRaised => applyAlertRaised t linkId d
  | .alertResolved => applyAlertResolved t linkId d
  | .heartbeat => t.setLink linkId fun l => { l with heartbeat := d }

/-! ## Receipt -/

inductive EventResult
  | accepted | duplicate | rejected | ignored
deriving DecidableEq, Repr

/-- The answer to one event. -/
structure Verdict where
  id : Text
  result : EventResult
  code : Option Text
deriving DecidableEq

inductive EventOutcome
  | new
  | known (result : EventResult) (code : Option Text)
  | conflict
deriving DecidableEq

/-- `eventOutcome` -/
def eventOutcome (stored : Option StoredEvent) (hash : Text) : EventOutcome :=
  match stored with
  | none => .new
  | some s =>
    if s.hash ≠ hash then .conflict
    else match s.result with
    | .accepted => .known .duplicate none
    | .ignored => .known .ignored s.code
    | .rejected => .known .rejected s.code

/-- What ends a transaction without an answer. -/
inductive ReceiveFailure
  | exn (e : Exn)
  /-- The database refuses a row, such as a text with a zero character. -/
  | database
deriving DecidableEq

def LinkTables.stored (t : LinkTables) (eventId : Text) : Option StoredEvent :=
  t.events.find? fun s => s.eventId = uuidText eventId

section Receipt

-- The hash of a checksum, and whether the database takes what is written for an event.
variable (sha256 : Bytes → Text) (takes : RawEvent → Bool)

def storedRow (linkId : Text) (e : RawEvent) (result : StoredResult) (code : Option Text) :
    StoredEvent :=
  ⟨linkId, uuidText e.id, e.seq, e.type, eventHash sha256 e, result, code⟩

/-- The effect of an event, its row and the progress of its link. -/
def accept (t : LinkTables) (linkId : Text) (e : RawEvent) (type : LinkEventType) (data : Value) :
    LinkTables :=
  let t := applyEvent t linkId type data e.seq
  let t := { t with events := t.events ++ [storedRow sha256 linkId e .accepted none] }
  t.setLink linkId fun l => { l with lastSeq := max l.lastSeq e.seq }

/-- `receiveEvent`: one transaction. -/
def receiveEvent (t : LinkTables) (linkId : Text) (e : RawEvent) :
    Except ReceiveFailure (LinkTables × Verdict) :=
  match t.link linkId with
  | none => .ok (t, ⟨e.id, .rejected, some (js "link_revoked")⟩)
  | some link =>
    if link.status ≠ .active then .ok (t, ⟨e.id, .rejected, some (js "link_revoked")⟩)
    else
      match eventOutcome (t.stored e.id) (eventHash sha256 e) with
      | .known result code => .ok (t, ⟨e.id, result, code⟩)
      | .conflict => .ok (t, ⟨e.id, .rejected, some (js "hash_mismatch")⟩)
      | .new =>
        match parseEventData e with
        | .error x => .error (.exn x)
        | .ok parsed =>
          if !takes e then .error .database
          else match parsed with
          | .unknownType =>
            .ok ({ t with events := t.events ++ [storedRow sha256 linkId e .ignored none] },
              ⟨e.id, .ignored, none⟩)
          | .invalid =>
            .ok ({ t with
                events := t.events ++ [storedRow sha256 linkId e .rejected (some (js "invalid"))] },
              ⟨e.id, .rejected, some (js "invalid")⟩)
          | .event type data => .ok (accept sha256 t linkId e type data, ⟨e.id, .accepted, none⟩)

/-- The events of a batch, each in its own transaction. What an event leaves stays, also when a
later one fails. -/
def receiveEvents (t : LinkTables) (linkId : Text) :
    List RawEvent → LinkTables × Except ReceiveFailure (List Verdict)
  | [] => (t, .ok [])
  | e :: es =>
    match receiveEvent sha256 takes t linkId e with
    | .error x => (t, .error x)
    | .ok (t', v) =>
      let (t'', vs) := receiveEvents t' linkId es
      (t'', vs.map (v :: ·))

inductive BatchError
  | notBound | walletOrgMismatch | linkMismatch
deriving DecidableEq, Repr

/-- The body of an answer. -/
structure BatchResponse where
  batchId : Text
  results : List Verdict
deriving DecidableEq

/-- `receiveBatch` -/
def receiveBatch (t : LinkTables) (link : WalletLink) (b : Batch) :
    LinkTables × Except ReceiveFailure (Except BatchError BatchResponse) :=
  match link.walletOrgId with
  | none => (t, .ok (.error .notBound))
  | some walletOrgId =>
    if walletOrgId ≠ b.walletOrgId then (t, .ok (.error .walletOrgMismatch))
    else if link.walletLinkId ≠ some b.linkId then (t, .ok (.error .linkMismatch))
    else
      let (t', vs) := receiveEvents sha256 takes t link.id b.events
      (t', vs.map fun results => .ok ⟨b.batchId, results⟩)

end Receipt

end Klick
