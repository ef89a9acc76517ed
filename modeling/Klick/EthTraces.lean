-- What an Ethereum node reports as movements (`lib/wallet/sync/ethereum.ts`,
-- `apps/wallet/lib/jobs/wallet-sync.ts`): the frames of calls and the logs of
-- tokens are read as observations. The hexadecimal quantities of the node
-- stand as numbers.
import Klick.Address
import Klick.Transfers

open Js

namespace Klick

/-! ## What the node answers -/

inductive TraceType
  | call | create | suicide | reward
deriving DecidableEq, Repr

structure EthAction where
  fromAddr : Option Text
  toAddr : Option Text
  value : Option ℕ
  callType : Option Text
  address : Option Text
  refundAddress : Option Text
  balance : Option ℕ
deriving DecidableEq

structure EthTrace where
  type : TraceType
  action : EthAction
  blockNumber : ℤ
  blockHash : Text
  transactionHash : Option Text
  traceAddress : List ℕ
  error : Option Text
deriving DecidableEq

structure EthLog where
  address : Text
  topics : List Text
  data : ℕ
  blockNumber : ℤ
  blockHash : Text
  transactionHash : Text
  logIndex : ℕ
  removed : Bool
deriving DecidableEq

structure EthReceipt where
  status : Text
  fromAddr : Text
  gasUsed : ℕ
  effectiveGasPrice : ℕ
  blockNumber : ℤ
  blockHash : Text

/-- `TRANSFER_TOPIC` -/
def transferTopic : Text :=
  js "0xddf252ad1be2c89b69c2b068fc378daa952ba7f163c4a11628f55a4df523b3ef"

/-- `lower`: an absent text counts as empty. -/
def lowerOf (s : Option Text) : Text := lower (s.getD [])

/-- `topicAddress` -/
def topicAddress (topic : Text) : Text := js "0x" ++ lower (topic.drop (topic.length - 40))

/-! ## Frames that move value -/

structure ValueFlow where
  fromAddr : Text
  toAddr : Text
  value : ℕ
deriving DecidableEq

/-- An error that is told, and not as an empty text. -/
def hasError (error : Option Text) : Bool := error.getD [] ≠ []

def isPrefixPath (pre path : List ℕ) : Bool := pre.isPrefixOf path

/-- `frameReverted`, with the paths of the frames in error for each transaction. -/
def frameReverted (t : EthTrace) (erroredFrames : Text → Option (List (List ℕ))) : Bool :=
  hasError t.error ||
    ((erroredFrames (lowerOf t.transactionHash)).getD []).any fun p => isPrefixPath p t.traceAddress

/-- `traceValueFlow` -/
def traceValueFlow (t : EthTrace) : Option ValueFlow :=
  match t.type with
  | .call =>
    if t.action.callType.getD (js "call") ≠ js "call" then none
    else
      let value := t.action.value.getD 0
      if value = 0 then none else some ⟨lowerOf t.action.fromAddr, lowerOf t.action.toAddr, value⟩
  | .suicide =>
    let value := t.action.balance.getD 0
    if value = 0 then none
    else some ⟨lowerOf t.action.address, lowerOf t.action.refundAddress, value⟩
  | _ => none

/-! ## Places -/

def dot : UInt16 := ch '.'

/-- `trace:r.0.1` for the frame at a path. -/
def traceRef (path : List ℕ) : Text := js "trace:" ++ join dot (js "r" :: path.map decimal)

theorem bar_not_mem_decimal (n : ℕ) : bar ∉ decimal n := by
  intro h
  exact absurd (decimal_digits n bar h) (by decide)

theorem bar_not_mem_traceRef (path : List ℕ) : bar ∉ traceRef path := by
  unfold traceRef
  rw [List.mem_append]
  rintro (h | h)
  · exact absurd h (by decide)
  · rcases mem_join h with h | ⟨t, ht, h⟩
    · exact absurd h (by decide)
    · rcases List.mem_cons.mp ht with rfl | ht
      · exact absurd h (by decide)
      · obtain ⟨n, -, rfl⟩ := List.mem_map.mp ht
        exact bar_not_mem_decimal n h

/-- The path can be read off the place. -/
theorem traceRef_injective {p q : List ℕ} (h : traceRef p = traceRef q) : p = q := by
  have hsplit : ∀ path : List ℕ, (join dot (js "r" :: path.map decimal)).splitOn dot =
      js "r" :: path.map decimal := by
    intro path
    refine List.splitOn_intercalate _ (fun t ht hmem => ?_) (by simp)
    rcases List.mem_cons.mp ht with rfl | ht
    · exact absurd hmem (by decide)
    · obtain ⟨n, -, rfl⟩ := List.mem_map.mp ht
      exact absurd (decimal_digits n dot hmem) (by decide)
  have hjoin := congrArg (·.splitOn dot) (List.append_cancel_left h)
  simp only [hsplit, List.cons.injEq, true_and] at hjoin
  exact List.map_injective_iff.mpr (fun _ _ => decimal_injective) hjoin

/-- `in:` and `out:` before the place. -/
def Direction.prefixText : Direction → Text
  | incoming => js "in:"
  | outgoing => js "out:"

def traceOutput (d : Direction) (path : List ℕ) : OutputRef where
  text := d.prefixText ++ traceRef path
  plain := by
    rw [List.mem_append]
    rintro (h | h)
    · cases d <;> exact absurd h (by decide)
    · exact bar_not_mem_traceRef path h

def logOutput (d : Direction) (index : ℕ) : OutputRef where
  text := d.prefixText ++ (js "log:" ++ decimal index)
  plain := by
    rw [List.mem_append, List.mem_append]
    rintro (h | h | h)
    · cases d <;> exact absurd h (by decide)
    · exact absurd h (by decide)
    · exact bar_not_mem_decimal index h

def feeOutput : OutputRef := ⟨js "out:fee", by decide⟩

/-! ## Observations -/

structure TxFee where
  fee : ℕ
  fromAddr : Text
  blockHeight : ℤ
  blockHash : Text

structure EthSyncInput where
  ours : List Text
  traces : List EthTrace
  logs : List EthLog
  tokens : List (Text × AssetInfo)
  revertedTxs : List Text
  erroredFrames : Text → Option (List (List ℕ))
  fees : List (Text × TxFee)
  blockTimes : Text → Option ℤ
  finalizedHeight : ℤ
  latestHeight : ℤ

namespace EthSyncInput

def statusAt (input : EthSyncInput) (height : ℤ) : ObservedStatus :=
  if height ≤ input.finalizedHeight then .confirmed else .pending

def confirmationsAt (input : EthSyncInput) (height : ℤ) : ℤ :=
  max 0 (input.latestHeight - height + 1)

/-- The fields that all observations of one movement share. -/
def observation (input : EthSyncInput) (direction : Direction) (asset : AssetCode) (amount : ℕ)
    (txid : Text) (outputRef : OutputRef) (address : Text) (counterparty : Option Text)
    (height : ℤ) (blockHash : Text) : TransferObservation where
  direction := direction
  asset := asset
  amount := amount
  txid := txid
  outputRef := outputRef
  address := address
  counterparty := counterparty
  blockHeight := some height
  blockHash := some (lower blockHash)
  blockTime := input.blockTimes (lower blockHash)
  confirmations := input.confirmationsAt height
  status := input.statusAt height

/-- The flow of a trace that counts: its transaction is told and stands, and no frame above
it was rolled back. -/
def countedFlow (input : EthSyncInput) (t : EthTrace) : Option ValueFlow :=
  let txid := lowerOf t.transactionHash
  if txid = [] || input.revertedTxs.contains txid then none
  else if frameReverted t input.erroredFrames then none
  else traceValueFlow t

/-- `flow.from || null` -/
def orNull (t : Text) : Option Text := if t = [] then none else some t

def flowObservations (input : EthSyncInput) (t : EthTrace) (flow : ValueFlow) :
    List TransferObservation :=
  let txid := lowerOf t.transactionHash
  (if input.ours.contains flow.toAddr then
    [input.observation .incoming .eth flow.value txid (traceOutput .incoming t.traceAddress)
      flow.toAddr (orNull flow.fromAddr) t.blockNumber t.blockHash] else []) ++
  (if input.ours.contains flow.fromAddr then
    [input.observation .outgoing .eth flow.value txid (traceOutput .outgoing t.traceAddress)
      flow.fromAddr (orNull flow.toAddr) t.blockNumber t.blockHash] else [])

/-- The key of `seenTrace`. -/
def traceKey (t : EthTrace) : Text :=
  lowerOf t.transactionHash ++ bar :: traceRef t.traceAddress

/-- The loop over the traces, `seen` being the keys met so far. -/
def traceObservations (input : EthSyncInput) : List Text → List EthTrace → List TransferObservation
  | _, [] => []
  | seen, t :: ts =>
    match input.countedFlow t with
    | none => traceObservations input seen ts
    | some flow =>
      if traceKey t ∈ seen then traceObservations input seen ts
      else input.flowObservations t flow ++ traceObservations input (traceKey t :: seen) ts

/-- `tokens.get(contract)` -/
def tokenOf (input : EthSyncInput) (contract : Text) : Option AssetInfo :=
  (input.tokens.reverse.find? fun a => a.1 = contract).map Prod.snd

def logObservations (input : EthSyncInput) (log : EthLog) : List TransferObservation :=
  if log.removed then []
  else match input.tokenOf (lower log.address) with
  | none => []
  | some asset =>
    if lowerOf log.topics.head? ≠ transferTopic || log.topics.length ≠ 3 then []
    else
      let txid := lower log.transactionHash
      if input.revertedTxs.contains txid then []
      else
        let sender := topicAddress (log.topics.getD 1 [])
        let recipient := topicAddress (log.topics.getD 2 [])
        if log.data = 0 then []
        else
          (if input.ours.contains recipient then
            [input.observation .incoming asset.code log.data txid
              (logOutput .incoming log.logIndex) recipient (some sender) log.blockNumber
              log.blockHash] else []) ++
          (if input.ours.contains sender then
            [input.observation .outgoing asset.code log.data txid
              (logOutput .outgoing log.logIndex) sender (some recipient) log.blockNumber
              log.blockHash] else [])

def feeObservations (input : EthSyncInput) (fee : Text × TxFee) : List TransferObservation :=
  if fee.2.fee = 0 then []
  else [input.observation .outgoing .eth fee.2.fee fee.1 feeOutput (lower fee.2.fromAddr) none
    fee.2.blockHeight fee.2.blockHash]

end EthSyncInput

/-- `ethObservations` -/
def ethObservations (input : EthSyncInput) : List TransferObservation :=
  input.traceObservations [] input.traces ++ input.logs.flatMap input.logObservations ++
    input.fees.flatMap input.feeObservations

/-- `ownSentTxids` -/
def ownSentTxids (traces : List EthTrace) (ours : List Text) : List Text :=
  distinct ((traces.filter fun t =>
    t.traceAddress = [] && t.transactionHash.getD [] ≠ [] &&
      ours.contains (lowerOf t.action.fromAddr)).map fun t => lowerOf t.transactionHash)

/-! ## Reading the node -/

/-- What the node answers in a round, besides the heights. -/
structure NodeAnswers where
  /-- The answers of `trace_filter`. -/
  traces : List EthTrace
  /-- The answers of `eth_getLogs`. -/
  logs : List EthLog
  /-- `eth_getTransactionReceipt` -/
  receipt : Text → Option EthReceipt
  /-- `trace_transaction` -/
  traceTransaction : Text → List EthTrace
  /-- The time of a block, by its hash. -/
  blockTimes : Text → Option ℤ

/-- The token contracts of a network, in lower case. -/
def tokensOf (network : WalletNetwork) : List (Text × AssetInfo) :=
  (assets network).filterMap fun a => a.contract.map fun contract => (lower contract, a)

/-- The traces with a flow to or from an own address. -/
def flowTraces (ours : List Text) (traces : List EthTrace) : List EthTrace :=
  traces.filter fun t => match traceValueFlow t with
    | none => false
    | some f => ours.contains f.toAddr || ours.contains f.fromAddr

/-- The part of `readEthereum` between the answers of the node and `ethObservations`. -/
def syncInput (network : WalletNetwork) (ours : List Text) (node : NodeAnswers)
    (finalizedHeight latestHeight : ℤ) : EthSyncInput :=
  let flows := flowTraces ours node.traces
  let own := ownSentTxids node.traces ours
  let candidates := (distinct (flows.map (fun t => lowerOf t.transactionHash) ++
    node.logs.map (fun l => lower l.transactionHash) ++ own)).filter (· ≠ [])
  -- frames in error are read for internal calls only
  let inner := distinct ((flows.filter fun t => t.traceAddress ≠ []).map fun t =>
    lowerOf t.transactionHash)
  { ours := ours
    traces := node.traces
    logs := node.logs
    tokens := tokensOf network
    revertedTxs := candidates.filter fun h => (node.receipt h).map (·.status) = some (js "0x0")
    erroredFrames := fun h =>
      if inner.contains h then
        some (((node.traceTransaction h).filter fun t => hasError t.error).map (·.traceAddress))
      else none
    fees := own.filterMap fun h =>
      if candidates.contains h then
        (node.receipt h).map fun r =>
          (h, ⟨r.gasUsed * r.effectiveGasPrice, r.fromAddr, r.blockNumber, r.blockHash⟩)
      else none
    blockTimes := node.blockTimes
    finalizedHeight := finalizedHeight
    latestHeight := latestHeight }

end Klick
