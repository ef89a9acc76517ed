-- How the wallet sends its outbox to Klick (`export/send-rules.ts`,
-- `export/sender.ts`): what goes into a batch, and what an answer makes of the
-- link. Notifications, audit entries and the texts of errors' details are left out.
import Klick.Ingest

open Js

namespace Klick

/-! ## Rows -/

inductive SendStatus
  | active | paused | revoked
deriving DecidableEq, Repr

/-- A row of `export_outbox`; a time as `toISOString` writes it. -/
structure OutboxRow where
  id : Text
  linkId : Option Text
  seq : ℤ
  type : Text
  occurredAt : Text
  data : Value

/-- `SentEvent` -/
structure SentEvent where
  id : Text
  seq : ℤ
  type : Text
deriving DecidableEq

/-- `LinkRejection`, without its time. -/
structure LinkRejection extends SentEvent where
  code : Option Text
deriving DecidableEq

/-- A row of `klick_links`; times in milliseconds. -/
structure KlickLink where
  id : Text
  status : SendStatus
  accountIds : Option (List Text)
  backfilledAt : Option ℤ
  ackedSeq : ℤ
  nextAttemptAt : Option ℤ
  attempts : ℕ
  lastError : Option Text
  pausedReason : Option Text
  rejected : List LinkRejection

/-! ## Scope -/

/-- `allowed.has(v ?? "")` -/
def allowedHas (accountIds : List Text) : Value → Bool
  | .str t => t ∈ accountIds
  | .undefined => [] ∈ accountIds
  | .null => [] ∈ accountIds
  | _ => false

/-- The accounts of a closed day that a link has. -/
def scopedAccounts (accountIds : List Text) : Value → List Value
  | .arr as => as.filter fun a => (a.at "accountId") matches .str _ &&
      allowedHas accountIds (a.at "accountId")
  | _ => []

/-- `scopeEvent`, none for null. -/
def scopeEvent (type : Text) (data : Value) (accountIds : Option (List Text)) : Option Value :=
  match accountIds with
  | none => if data matches .null then none else some data
  | some ids =>
    if type = js "account.upserted" then
      (if allowedHas ids ((data.at "account").at "id") then some data else none)
    else if type = js "transfer.upserted" then
      (if allowedHas ids ((data.at "transfer").at "accountId") then some data else none)
    else if type = js "payout.upserted" then
      (if allowedHas ids ((data.at "payout").at "accountId") then some data else none)
    else if type = js "day.closed" then
      some (.obj (setField data.entries (js "accounts")
        (.arr (scopedAccounts ids (data.at "accounts")))))
    else if type = js "alert.raised" then
      (if (data.at "subject").at "kind" matches .str _ &&
          ((data.at "subject").at "kind").asText = js "account" &&
          !allowedHas ids ((data.at "subject").at "id") then none
      else some data)
    else some data

/-! ## Batches -/

/-- What a batch says beside its events. -/
structure BatchHead where
  walletOrgId : Text
  linkId : Text
  batchId : Text
  sentAt : Text

/-- The body of a batch. -/
structure BatchBody extends BatchHead where
  events : List RawEvent

def RawEvent.value (e : RawEvent) : Value :=
  .obj (named
    [("id", .str e.id), ("seq", .int e.seq), ("type", .str e.type),
      ("occurredAt", .str e.occurredAt), ("data", e.data)])

/-- `CONTRACT_VERSION` -/
def contractVersion : ℤ := 1

def BatchBody.value (b : BatchBody) : Value :=
  .obj (named
    [("contract", .str contract), ("v", .int contractVersion), ("walletOrgId", .str b.walletOrgId),
      ("linkId", .str b.linkId), ("batchId", .str b.batchId), ("sentAt", .str b.sentAt),
      ("events", .arr (b.events.map RawEvent.value))])

/-- The row as an event with the data of its scope, none outside the scope. -/
def OutboxRow.event (accountIds : Option (List Text)) (r : OutboxRow) : Option RawEvent :=
  (scopeEvent r.type r.data accountIds).map fun data => ⟨r.id, r.seq, r.type, r.occurredAt, data⟩

def RawEvent.sent (e : RawEvent) : SentEvent := ⟨e.id, e.seq, e.type⟩

/-- What `buildBatch` returns. -/
structure Built where
  body : Option BatchBody
  sent : List SentEvent
  lastSeq : ℤ

/-- The batch of some rows; rows outside the scope count for its last `seq`. -/
def batchOf (rows : List OutboxRow) (accountIds : Option (List Text)) (head : BatchHead) : Built :=
  let events := rows.filterMap (OutboxRow.event accountIds)
  { body := if events = [] then none else some { head with events := events }
    sent := events.map RawEvent.sent
    lastSeq := ((rows.getLast?).map (·.seq)).getD 0 }

/-- Whether a batch may be sent: it is small enough. -/
def Built.fits (b : Built) : Bool :=
  b.body.all fun body => (utf8 (stringify body.value)).length ≤ maxBodyBytes

/-- The loop of `buildBatch`: batches too large are halved. `fuel` bounds the turns. -/
def buildFrom (rows : List OutboxRow) (accountIds : Option (List Text)) (head : BatchHead) :
    ℕ → ℕ → Built
  | 0, _ => ⟨none, [], 0⟩
  | fuel + 1, take =>
    if take = 0 then ⟨none, [], 0⟩
    else
      let built := batchOf (rows.take take) accountIds head
      if built.fits || take = 1 then built
      else buildFrom rows accountIds head fuel ((take + 1) / 2)

/-- `buildBatch` -/
def buildBatch (rows : List OutboxRow) (accountIds : Option (List Text)) (head : BatchHead) :
    Built :=
  buildFrom rows accountIds head rows.length rows.length

/-- A batch is that of the first rows, at least one. -/
theorem buildFrom_eq {rows : List OutboxRow} {accountIds : Option (List Text)} {head : BatchHead} :
    ∀ {fuel take : ℕ}, 1 ≤ take → take ≤ fuel → ∃ k, 1 ≤ k ∧ k ≤ take ∧
      buildFrom rows accountIds head fuel take = batchOf (rows.take k) accountIds head := by
  intro fuel
  induction fuel with
  | zero =>
    intro take h1 h2
    omega
  | succ fuel ih =>
    intro take h1 h2
    unfold buildFrom
    rw [if_neg (by omega)]
    dsimp only
    by_cases hfits : ((batchOf (rows.take take) accountIds head).fits || take = 1) = true
    · rw [if_pos hfits]
      exact ⟨take, h1, le_refl take, rfl⟩
    · rw [if_neg hfits]
      have htake : take ≠ 1 := by
        rintro rfl
        simp at hfits
      obtain ⟨k, hk1, hk2, heq⟩ := @ih ((take + 1) / 2) (by omega) (by omega)
      exact ⟨k, hk1, by omega, heq⟩

theorem buildBatch_eq {rows : List OutboxRow} (h : rows ≠ []) (accountIds : Option (List Text))
    (head : BatchHead) : ∃ k, 1 ≤ k ∧ k ≤ rows.length ∧
      buildBatch rows accountIds head = batchOf (rows.take k) accountIds head :=
  buildFrom_eq (List.length_pos_of_ne_nil h) (le_refl _)

/-- The mark of a batch is the `seq` of its last row. -/
theorem lastSeq_batchOf {rows : List OutboxRow} (h : rows ≠ []) (accountIds : Option (List Text))
    (head : BatchHead) : ∃ r ∈ rows, (batchOf rows accountIds head).lastSeq = r.seq := by
  refine ⟨rows.getLast h, List.getLast_mem h, ?_⟩
  simp [batchOf, List.getLast?_eq_getLast_of_ne_nil h]

/-- Of rows in ascending order, the first ones hold every row up to one of theirs. -/
theorem mem_take_of_le {rows : List OutboxRow} (h : rows.Pairwise fun a b => a.seq < b.seq) {k : ℕ}
    {r x : OutboxRow} (hr : r ∈ rows) (hx : x ∈ rows.take k) (hle : r.seq ≤ x.seq) :
    r ∈ rows.take k := by
  rw [← List.take_append_drop k rows] at h hr
  rcases List.mem_append.mp hr with hr | hr
  · exact hr
  · have hlt := (List.pairwise_append.mp h).2.2 x hx r hr
    omega

/-! ## Answers -/

inductive SendOutcome
  | ok
  | pause (reason : String)
  | retry (error : Text)

/-- `classifyStatus` -/
def classifyStatus (status : ℕ) : SendOutcome :=
  if 200 ≤ status ∧ status < 300 then .ok
  else if status = 401 then .pause "unauthorized"
  else if status = 403 then .pause "forbidden"
  else if status = 410 then .pause "gone"
  else .retry (js "HTTP " ++ decimal status)

/-- The result under an id, the last one as in a `Map`. -/
def BatchResponse.byId (res : BatchResponse) (id : Text) : Option Verdict :=
  res.results.reverse.find? fun v => v.id = id

inductive ResultsError
  | batchMismatch | resultsDuplicate | resultsMissing | resultsExtra
deriving DecidableEq, Repr

/-- The rejections among the sent events. -/
def rejectionsOf (res : BatchResponse) : List SentEvent → Except ResultsError (List LinkRejection)
  | [] => .ok []
  | e :: es =>
    match res.byId e.id with
    | none => .error .resultsMissing
    | some v =>
      if v.result = .rejected then (rejectionsOf res es).map (⟨e, v.code⟩ :: ·)
      else rejectionsOf res es

/-- `applyResults` -/
def applyResults (sent : List SentEvent) (res : BatchResponse) (batchId : Text) :
    Except ResultsError (List LinkRejection) :=
  if res.batchId ≠ batchId then .error .batchMismatch
  else if (res.results.map (·.id)).dedup.length ≠ res.results.length then .error .resultsDuplicate
  else
    match rejectionsOf res sent with
    | .error x => .error x
    | .ok rejected =>
      if (res.results.map (·.id)).dedup.length ≠ sent.length then .error .resultsExtra
      else .ok rejected

/-- `mergeRejected`: the newest first, at most 50. -/
def mergeRejected (prev next : List LinkRejection) : List LinkRejection :=
  ((next ++ prev).mergeSort fun a b => b.seq ≤ a.seq).take 50

/-- `backoffMs` -/
def backoffMs (attempts : ℕ) : ℤ := min (60 * 60000) (60000 * 2 ^ (attempts - 1))

/-! ## What a run leaves at its link -/

/-- Whether a run sends for a link at a time. -/
def KlickLink.due (l : KlickLink) (now : ℤ) : Bool :=
  l.status = .active && l.backfilledAt.isSome && !(l.nextAttemptAt.any (now < ·))

/-- `fail("retry")`: `attempts` is that of the link as the run read it. -/
def KlickLink.retry (l : KlickLink) (attempts : ℕ) (now : ℤ) (error : Text) : KlickLink :=
  { l with
    lastError := some error
    attempts := attempts + 1
    nextAttemptAt := some (now + backoffMs (attempts + 1)) }

/-- `fail("pause")` -/
def KlickLink.pause (l : KlickLink) (attempts : ℕ) (error : Text) (reason : Text) : KlickLink :=
  { l with
    status := .paused
    pausedReason := some reason
    lastError := some error
    attempts := attempts + 1 }

/-- What an answered batch leaves: its last `seq` and the rejections; `prev` are those of the link
as the run read it. -/
def KlickLink.acked (l : KlickLink) (lastSeq : ℤ) (prev rejected : List LinkRejection) : KlickLink :=
  { l with
    ackedSeq := lastSeq
    attempts := 0
    nextAttemptAt := none
    lastError := none
    rejected := if rejected = [] then l.rejected else mergeRejected prev rejected }

end Klick
