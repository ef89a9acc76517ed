-- The movements of Ether that a round observes, against what the transactions
-- of the blocks it reads do to the balance of the own addresses.
import Klick.EthTraces
import Klick.Rollback

open Js Rollback

namespace Klick

/-! ## Transactions and their calls -/

/-- A frame of a transaction: a call, a creation or a self-destruction. `created` is the
address that a creation made. -/
structure Frame where
  type : TraceType
  action : EthAction
  created : Option Text
  error : Option Text
deriving DecidableEq

def Frame.failed (f : Frame) : Bool := hasError f.error

/-- What the machine moves in a frame that stands. A call in another's name moves nothing,
nor does one that may not change the state. -/
def Frame.flow (f : Frame) : Option ValueFlow :=
  match f.type with
  | .call =>
    if f.action.callType.getD (js "call") ≠ js "call" then none
    else some ⟨lowerOf f.action.fromAddr, lowerOf f.action.toAddr, f.action.value.getD 0⟩
  | .create => some ⟨lowerOf f.action.fromAddr, lowerOf f.created, f.action.value.getD 0⟩
  | .suicide =>
    some ⟨lowerOf f.action.address, lowerOf f.action.refundAddress, f.action.balance.getD 0⟩
  | .reward => none

def ValueFlow.side (f : ValueFlow) : Direction → Text
  | .incoming => f.toAddr
  | .outgoing => f.fromAddr

def signed : Direction → ℕ → ℤ
  | .incoming, n => n
  | .outgoing, n => -n

/-- What a flow does to the balance of the own addresses. -/
def ValueFlow.change (ours : List Text) (f : ValueFlow) : ℤ :=
  (if ours.contains f.toAddr then (f.value : ℤ) else 0) -
    if ours.contains f.fromAddr then (f.value : ℤ) else 0

def Frame.change (ours : List Text) (f : Frame) : ℤ :=
  match f.flow with
  | none => 0
  | some flow => flow.change ours

/-- The frame moves value on this side of an own address. -/
def Frame.movesOwn (ours : List Text) (f : Frame) (d : Direction) : Bool :=
  match f.flow with
  | none => false
  | some flow => flow.value ≠ 0 && ours.contains (flow.side d)

structure EthTransaction where
  hash : Text
  sender : Text
  gasUsed : ℕ
  effectiveGasPrice : ℕ
  blockNumber : ℤ
  blockHash : Text
  calls : CallTree Frame
  /-- The hash is told. -/
  hash_ne : lower hash ≠ []
  /-- The outermost frame is that of the sender. -/
  calls_sender : calls.root.action.fromAddr = some sender

namespace EthTransaction

def frames (tx : EthTransaction) : List (List ℕ × Frame) := tx.calls.nodes []

/-- The frames that stand. -/
def live (tx : EthTransaction) : List (List ℕ × Frame) := tx.calls.live Frame.failed []

/-- A frame as the node tells it. -/
def trace (tx : EthTransaction) (n : List ℕ × Frame) : EthTrace where
  type := n.2.type
  action := n.2.action
  blockNumber := tx.blockNumber
  blockHash := tx.blockHash
  transactionHash := some tx.hash
  traceAddress := n.1
  error := n.2.error

def receipt (tx : EthTransaction) : EthReceipt where
  status := if tx.calls.root.failed then js "0x0" else js "0x1"
  fromAddr := tx.sender
  gasUsed := tx.gasUsed
  effectiveGasPrice := tx.effectiveGasPrice
  blockNumber := tx.blockNumber
  blockHash := tx.blockHash

def txid (tx : EthTransaction) : Text := lower tx.hash

def fee (tx : EthTransaction) : ℕ := tx.gasUsed * tx.effectiveGasPrice

/-- What the transaction does to the balance of the own addresses: the flows of its frames,
of which a failed frame takes back everything under it, and the fee, which is paid also by
a transaction that fails. -/
def balanceChange (tx : EthTransaction) (ours : List Text) : ℤ :=
  tx.calls.effect Frame.failed (Frame.change ours) -
    if ours.contains (lower tx.sender) then (tx.fee : ℤ) else 0

end EthTransaction

/-- The transactions of the blocks that are read. -/
structure EthBlocks where
  txs : List EthTransaction
  distinct_hashes : (txs.map (·.txid)).Nodup

/-- One of the addresses of a trace is an own one. -/
def touches (ours : List Text) (t : EthTrace) : Bool :=
  [t.action.fromAddr, t.action.toAddr, t.action.address, t.action.refundAddress].any
    fun a => ours.contains (lowerOf a)

/-- Answers of the node that are complete for the blocks: the traces that touch an own
address, each receipt and all frames of each transaction. -/
structure CompleteAnswers (ours : List Text) (blocks : EthBlocks) extends NodeAnswers where
  traces_sound : ∀ t ∈ traces, ∃ tx ∈ blocks.txs, ∃ n ∈ tx.frames, t = tx.trace n
  traces_complete : ∀ tx ∈ blocks.txs, ∀ n ∈ tx.frames, touches ours (tx.trace n) = true →
    tx.trace n ∈ traces
  receipts_told : ∀ tx ∈ blocks.txs, receipt tx.txid = some tx.receipt
  frames_told : ∀ tx ∈ blocks.txs, traceTransaction tx.txid = tx.frames.map tx.trace

/-! ## The property -/

/-- Incoming Ether less outgoing Ether, the fees among it. -/
def ethNet (os : List TransferObservation) : ℤ :=
  (os.map fun o => if o.asset = .eth then
    match o.direction with
    | .incoming => o.amount
    | .outgoing => -o.amount
  else 0).sum

/-- How often a place of a transaction is observed as a movement of Ether. -/
def timesObserved (os : List TransferObservation) (txid : Text) (place : OutputRef) : ℕ :=
  os.countP fun o => o.asset = .eth && o.txid = txid && o.outputRef = place

/-- The observations add up to what the blocks do to the balance of the own addresses, and
every frame is observed once on each own side on which it moves value, if it stands, and
else not at all. -/
structure ConservesValue (ours : List Text) (blocks : EthBlocks) (os : List TransferObservation) :
    Prop where
  sum : ethNet os = (blocks.txs.map (·.balanceChange ours)).sum
  counted : ∀ tx ∈ blocks.txs, ∀ n ∈ tx.frames, ∀ d,
    timesObserved os tx.txid (traceOutput d n.1) =
      if n ∈ tx.live ∧ n.2.movesOwn ours d = true then 1 else 0

/-- No creation that stands moves value from or to an own address. -/
def NoOwnCreation (ours : List Text) (blocks : EthBlocks) : Prop :=
  ∀ tx ∈ blocks.txs, ∀ n ∈ tx.live, n.2.type = .create → ∀ d, n.2.movesOwn ours d = false

/-! ## Frames that count -/

namespace EthTransaction

theorem mem_live {tx : EthTransaction} {n : List ℕ × Frame} :
    n ∈ tx.live ↔ n ∈ tx.frames ∧ CallTree.Stands Frame.failed tx.frames n.1 :=
  CallTree.mem_live

theorem frames_nodup (tx : EthTransaction) : (tx.frames.map Prod.fst).Nodup :=
  CallTree.nodes_nodup [] tx.calls

theorem eq_of_path {tx : EthTransaction} {n m : List ℕ × Frame} (hn : n ∈ tx.frames)
    (hm : m ∈ tx.frames) (h : n.1 = m.1) : n = m :=
  List.inj_on_of_nodup_map tx.frames_nodup hn hm h

theorem root_mem (tx : EthTransaction) : ([], tx.calls.root) ∈ tx.frames :=
  CallTree.root_mem [] tx.calls

theorem live_eq_nil {tx : EthTransaction} (h : tx.calls.root.failed = true) : tx.live = [] :=
  CallTree.live_of_failed_root h

@[simp] theorem trace_txid (tx : EthTransaction) (n : List ℕ × Frame) :
    lowerOf (tx.trace n).transactionHash = tx.txid := rfl

end EthTransaction

theorem EthBlocks.eq_of_txid {blocks : EthBlocks} {tx tx' : EthTransaction}
    (h : tx ∈ blocks.txs) (h' : tx' ∈ blocks.txs) (ht : tx.txid = tx'.txid) : tx = tx' :=
  List.inj_on_of_nodup_map blocks.distinct_hashes h h' ht

theorem EthBlocks.find_txid (blocks : EthBlocks) {tx : EthTransaction} (h : tx ∈ blocks.txs) :
    blocks.txs.find? (fun tx' => tx'.txid = tx.txid) = some tx := by
  cases hf : blocks.txs.find? fun tx' => tx'.txid = tx.txid with
  | none => exact absurd (List.find?_eq_none.mp hf tx h) (by simp)
  | some tx' =>
    have hid := of_decide_eq_true (List.find?_some hf :)
    rw [EthBlocks.eq_of_txid (List.mem_of_find?_eq_some hf) h hid]

/-- A flow between the sides of a frame, as the program reads it: creations are left out. -/
theorem traceValueFlow_trace (tx : EthTransaction) (n : List ℕ × Frame) :
    traceValueFlow (tx.trace n) =
      if n.2.type = .create then none else n.2.flow.filter fun f => f.value ≠ 0 := by
  unfold traceValueFlow Frame.flow EthTransaction.trace
  cases htype : n.2.type with
  | call =>
    by_cases hc : n.2.action.callType.getD (js "call") = js "call"
    · by_cases hv : n.2.action.value.getD 0 = 0 <;> simp [hc, hv, Option.filter]
    · simp [hc]
  | suicide => by_cases hv : n.2.action.balance.getD 0 = 0 <;> simp [hv, Option.filter]
  | create => simp
  | reward => simp

variable {ours : List Text} {blocks : EthBlocks}

section Reading

variable (network : WalletNetwork) (node : CompleteAnswers ours blocks)
  (finalizedHeight latestHeight : ℤ)

/-- The input of `ethObservations` in a round. -/
abbrev roundInput : EthSyncInput :=
  syncInput network ours node.toNodeAnswers finalizedHeight latestHeight

/-- The flow touches an own address. -/
def ValueFlow.isOwn (ours : List Text) (f : ValueFlow) : Bool :=
  ours.contains f.toAddr || ours.contains f.fromAddr

theorem mem_flowTraces {t : EthTrace} {traces : List EthTrace} {f : ValueFlow} (ht : t ∈ traces)
    (hf : traceValueFlow t = some f) (hown : f.isOwn ours = true) : t ∈ flowTraces ours traces := by
  unfold flowTraces
  rw [List.mem_filter]
  refine ⟨ht, ?_⟩
  rw [hf]
  exact hown

theorem mem_candidates {tx : EthTransaction} {n : List ℕ × Frame}
    (ht : tx.trace n ∈ flowTraces ours node.traces) :
    tx.txid ∈ (distinct ((flowTraces ours node.traces).map (fun t => lowerOf t.transactionHash) ++
      node.logs.map (fun l => lower l.transactionHash) ++
        ownSentTxids node.traces ours)).filter (· ≠ []) := by
  rw [List.mem_filter, mem_distinct]
  refine ⟨?_, decide_eq_true tx.hash_ne⟩
  apply List.mem_append_left
  apply List.mem_append_left
  exact List.mem_map.mpr ⟨_, ht, rfl⟩

/-- The receipt tells whether the outermost frame failed. -/
theorem reverted_iff {tx : EthTransaction} (htx : tx ∈ blocks.txs) {n : List ℕ × Frame}
    (ht : tx.trace n ∈ flowTraces ours node.traces) :
    (roundInput network node finalizedHeight latestHeight).revertedTxs.contains tx.txid =
      tx.calls.root.failed := by
  rw [Bool.eq_iff_iff, List.contains_iff_mem]
  unfold roundInput syncInput
  simp only
  rw [List.mem_filter]
  constructor
  · rintro ⟨-, h⟩
    have h := of_decide_eq_true h
    rw [node.receipts_told tx htx, Option.map_some, Option.some.injEq] at h
    unfold EthTransaction.receipt at h
    simp only at h
    by_contra hroot
    rw [if_neg hroot] at h
    exact absurd h (by decide)
  · intro hroot
    refine ⟨mem_candidates node ht, ?_⟩
    rw [node.receipts_told tx htx]
    simp [EthTransaction.receipt, hroot]

/-- The frames in error, as far as they are read. -/
theorem erroredFrames_eq {tx : EthTransaction} (htx : tx ∈ blocks.txs) :
    (roundInput network node finalizedHeight latestHeight).erroredFrames tx.txid =
      if (distinct (((flowTraces ours node.traces).filter fun t => t.traceAddress ≠ []).map fun t =>
        lowerOf t.transactionHash)).contains tx.txid then
        some ((tx.frames.filter fun n => n.2.failed).map Prod.fst)
      else none := by
  unfold roundInput syncInput
  simp only
  congr 2
  rw [node.frames_told tx htx, List.filter_map, List.map_map]
  rfl

/-- A frame of a transaction whose outermost frame stands is rolled back when a failed frame
lies at or above it. -/
theorem frameReverted_iff {tx : EthTransaction} (htx : tx ∈ blocks.txs) {n : List ℕ × Frame}
    (hn : n ∈ tx.frames) (ht : tx.trace n ∈ flowTraces ours node.traces)
    (hroot : tx.calls.root.failed = false) :
    frameReverted (tx.trace n) (roundInput network node finalizedHeight latestHeight).erroredFrames
      = false ↔ n ∈ tx.live := by
  rw [EthTransaction.mem_live, and_iff_right hn]
  unfold frameReverted
  rw [Bool.or_eq_false_iff, EthTransaction.trace_txid,
    erroredFrames_eq network node finalizedHeight latestHeight htx]
  constructor
  · rintro ⟨-, hany⟩ m hm hfailed hpre
    by_cases hpath : n.1 = []
    · -- at or above the outermost frame there is only that frame
      rw [hpath, List.prefix_nil] at hpre
      rw [EthTransaction.eq_of_path hm tx.root_mem hpre] at hfailed
      rw [hroot] at hfailed
      cases hfailed
    · have hinner : (distinct (((flowTraces ours node.traces).filter fun t =>
          t.traceAddress ≠ []).map fun t => lowerOf t.transactionHash)).contains tx.txid = true := by
        rw [List.contains_iff_mem, mem_distinct]
        refine List.mem_map.mpr ⟨tx.trace n, List.mem_filter.mpr ⟨ht, ?_⟩, rfl⟩
        exact decide_eq_true hpath
      rw [if_pos hinner, Option.getD_some, List.any_eq_false] at hany
      refine hany m.1 (List.mem_map.mpr ⟨m, List.mem_filter.mpr ⟨hm, hfailed⟩, rfl⟩) ?_
      exact List.isPrefixOf_iff_prefix.mpr hpre
  · intro hs
    refine ⟨?_, ?_⟩
    · rw [← Bool.not_eq_true]
      exact fun herr => hs n hn herr List.prefix_rfl
    · rw [List.any_eq_false]
      intro p hp hpre
      split at hp
      · rw [Option.getD_some] at hp
        obtain ⟨m, hm, rfl⟩ := List.mem_map.mp hp
        rw [List.mem_filter] at hm
        exact hs m hm.1 hm.2 (List.isPrefixOf_iff_prefix.mp hpre)
      · exact absurd hp List.not_mem_nil

/-- Of the flows that touch an own address, those of the frames that stand are counted. -/
theorem countedFlow_trace {tx : EthTransaction} (htx : tx ∈ blocks.txs) {n : List ℕ × Frame}
    (hn : n ∈ tx.frames) (ht : tx.trace n ∈ node.traces) {f : ValueFlow}
    (hf : traceValueFlow (tx.trace n) = some f) (hown : f.isOwn ours = true) :
    (roundInput network node finalizedHeight latestHeight).countedFlow (tx.trace n) =
      if n ∈ tx.live then some f else none := by
  have hflow := mem_flowTraces ht hf hown
  have hid : tx.txid ≠ [] := tx.hash_ne
  have hreverted := reverted_iff network node finalizedHeight latestHeight htx hflow
  cases hroot : tx.calls.root.failed with
  | true =>
    rw [hroot] at hreverted
    rw [EthTransaction.live_eq_nil hroot, if_neg List.not_mem_nil]
    exact if_pos (by rw [EthTransaction.trace_txid, hreverted, Bool.or_true])
  | false =>
    rw [hroot] at hreverted
    have hframe := frameReverted_iff network node finalizedHeight latestHeight htx hn hflow hroot
    unfold EthSyncInput.countedFlow
    dsimp only
    rw [if_neg (by rw [EthTransaction.trace_txid, hreverted]; simpa using hid), hf]
    by_cases hlive : n ∈ tx.live
    · rw [if_pos hlive, if_neg (by rw [hframe.mpr hlive]; exact Bool.false_ne_true)]
    · rw [if_neg hlive, if_pos (by simpa using mt hframe.mp hlive)]

end Reading

/-! ## The list of counted frames -/

/-- The traces that count, with their flows. -/
def countedFlows (input : EthSyncInput) (traces : List EthTrace) : List (EthTrace × ValueFlow) :=
  traces.filterMap fun t => (input.countedFlow t).map fun f => (t, f)

def flowKey (p : EthTrace × ValueFlow) : Text := EthSyncInput.traceKey p.1

theorem traceObservations_eq (input : EthSyncInput) (seen : List Text) (ts : List EthTrace) :
    input.traceObservations seen ts =
      (firstsBy flowKey seen (countedFlows input ts)).flatMap fun p =>
        input.flowObservations p.1 p.2 := by
  induction ts generalizing seen with
  | nil => simp [EthSyncInput.traceObservations, countedFlows, firstsBy]
  | cons t ts ih =>
    unfold EthSyncInput.traceObservations
    cases hf : input.countedFlow t with
    | none => simpa [countedFlows, hf] using ih seen
    | some f =>
      have hcounted : countedFlows input (t :: ts) = (t, f) :: countedFlows input ts := by
        simp [countedFlows, hf]
      rw [hcounted, firstsBy]
      by_cases hs : EthSyncInput.traceKey t ∈ seen
      · simpa [hs, flowKey] using ih seen
      · simpa [hs, flowKey] using ih _

theorem mem_countedFlows {input : EthSyncInput} {traces : List EthTrace}
    {p : EthTrace × ValueFlow} :
    p ∈ countedFlows input traces ↔ p.1 ∈ traces ∧ input.countedFlow p.1 = some p.2 := by
  unfold countedFlows
  rw [List.mem_filterMap]
  constructor
  · rintro ⟨t, ht, h⟩
    obtain ⟨f, hf, rfl⟩ := Option.map_eq_some_iff.mp h
    exact ⟨ht, hf⟩
  · rintro ⟨ht, hf⟩
    exact ⟨p.1, ht, by rw [hf]; rfl⟩

theorem countedFlow_sound {input : EthSyncInput} {t : EthTrace} {f : ValueFlow}
    (h : input.countedFlow t = some f) : traceValueFlow t = some f := by
  unfold EthSyncInput.countedFlow at h
  dsimp only at h
  split at h
  · cases h
  · split at h
    · cases h
    · exact h

/-- The key tells the transaction and the frame. -/
theorem traceKey_inj {tx tx' : EthTransaction} {n n' : List ℕ × Frame} (htx : tx ∈ blocks.txs)
    (htx' : tx' ∈ blocks.txs) (hn : n ∈ tx.frames) (hn' : n' ∈ tx'.frames)
    (h : EthSyncInput.traceKey (tx.trace n) = EthSyncInput.traceKey (tx'.trace n')) :
    tx = tx' ∧ n = n' := by
  have hr := congrArg List.reverse h
  simp only [EthSyncInput.traceKey, List.reverse_append, List.reverse_cons, List.append_assoc,
    List.singleton_append, EthTransaction.trace_txid] at hr
  obtain ⟨hplace, hid⟩ := append_cons_cancel
    (by simpa using bar_not_mem_traceRef (tx.trace n).traceAddress)
    (by simpa using bar_not_mem_traceRef (tx'.trace n').traceAddress) hr
  have heq := EthBlocks.eq_of_txid htx htx' (List.reverse_injective hid)
  subst heq
  exact ⟨rfl, EthTransaction.eq_of_path hn hn' (traceRef_injective (List.reverse_injective hplace))⟩

/-- The flows of the frames that stand, as far as the program reads them. -/
def liveFlows (blocks : EthBlocks) : List (EthTrace × ValueFlow) :=
  blocks.txs.flatMap fun tx => tx.live.filterMap fun n =>
    (traceValueFlow (tx.trace n)).map fun f => (tx.trace n, f)

theorem mem_liveFlows {p : EthTrace × ValueFlow} :
    p ∈ liveFlows blocks ↔ ∃ tx ∈ blocks.txs, ∃ n ∈ tx.live,
      p.1 = tx.trace n ∧ traceValueFlow (tx.trace n) = some p.2 := by
  unfold liveFlows
  rw [List.mem_flatMap]
  refine exists_congr fun tx => and_congr_right fun _ => ?_
  rw [List.mem_filterMap]
  refine exists_congr fun n => and_congr_right fun _ => ?_
  rw [Option.map_eq_some_iff]
  constructor
  · rintro ⟨f, hf, rfl⟩
    exact ⟨rfl, hf⟩
  · rintro ⟨h1, h2⟩
    exact ⟨p.2, h2, by rw [← h1]⟩

theorem trace_injective {tx : EthTransaction} {n n' : List ℕ × Frame} (hn : n ∈ tx.frames)
    (hn' : n' ∈ tx.frames) (h : tx.trace n = tx.trace n') : n = n' :=
  EthTransaction.eq_of_path hn hn' (congrArg EthTrace.traceAddress h)

theorem live_nodup (tx : EthTransaction) : tx.live.Nodup :=
  (CallTree.live_sublist Frame.failed [] tx.calls).nodup (List.Nodup.of_map _ tx.frames_nodup)

theorem liveFlows_nodup (blocks : EthBlocks) : (liveFlows blocks).Nodup := by
  unfold liveFlows
  rw [List.nodup_flatMap]
  refine ⟨?_, ?_⟩
  · intro tx _
    have hpair : tx.live.Pairwise fun n n' => n ∈ tx.live ∧ n' ∈ tx.live ∧ n ≠ n' :=
      (List.pairwise_iff_forall_sublist.mpr fun {a b} hs => ⟨hs.subset (by simp),
        hs.subset (by simp), by
          have := hs.nodup (live_nodup tx)
          simp at this
          exact this⟩)
    refine hpair.filterMap _ ?_
    rintro n n' ⟨hn, hn', hne⟩ p hp q hq hpq
    obtain ⟨f, -, rfl⟩ := Option.map_eq_some_iff.mp hp
    obtain ⟨g, -, rfl⟩ := Option.map_eq_some_iff.mp hq
    exact hne (trace_injective (CallTree.live_subset hn) (CallTree.live_subset hn')
      (congrArg Prod.fst hpq))
  · have hids : blocks.txs.Pairwise fun tx tx' => tx.txid ≠ tx'.txid :=
      List.pairwise_map.mp blocks.distinct_hashes
    refine hids.imp fun {tx tx'} hne p hp hp' => hne ?_
    obtain ⟨n, -, hn⟩ := List.mem_filterMap.mp hp
    obtain ⟨n', -, hn'⟩ := List.mem_filterMap.mp hp'
    obtain ⟨f, -, rfl⟩ := Option.map_eq_some_iff.mp hn
    obtain ⟨g, -, heq⟩ := Option.map_eq_some_iff.mp hn'
    have := congrArg (fun q => lowerOf q.1.transactionHash) heq
    simpa using this.symm

/-! ## The sum of the observations -/

@[simp] theorem ethNet_nil : ethNet [] = 0 := rfl

@[simp] theorem ethNet_append (os ps : List TransferObservation) :
    ethNet (os ++ ps) = ethNet os + ethNet ps := by
  simp [ethNet]

theorem ethNet_flatMap {α : Type} (l : List α) (g : α → List TransferObservation) :
    ethNet (l.flatMap g) = (l.map fun a => ethNet (g a)).sum := by
  induction l with
  | nil => simp
  | cons a l ih => simp [ih]

theorem change_eq_zero {f : ValueFlow} (h : f.isOwn ours = false) : f.change ours = 0 := by
  unfold ValueFlow.isOwn at h
  rw [Bool.or_eq_false_iff] at h
  unfold ValueFlow.change
  rw [h.1, h.2]
  simp

theorem ethNet_flow (input : EthSyncInput) (t : EthTrace) (f : ValueFlow) :
    ethNet (input.flowObservations t f) = f.change input.ours := by
  unfold EthSyncInput.flowObservations ValueFlow.change
  by_cases hto : f.toAddr ∈ input.ours <;> by_cases hfrom : f.fromAddr ∈ input.ours <;>
    simp [hto, hfrom, ethNet, EthSyncInput.observation]

section Sum

variable (network : WalletNetwork) (node : CompleteAnswers ours blocks)
  (finalizedHeight latestHeight : ℤ)

/-- The counted flows of a round, each frame once. -/
def roundFlows : List (EthTrace × ValueFlow) :=
  firstsBy flowKey []
    (countedFlows (roundInput network node finalizedHeight latestHeight) node.traces)

theorem mem_roundFlows {p : EthTrace × ValueFlow} :
    p ∈ roundFlows network node finalizedHeight latestHeight ↔
      p.1 ∈ node.traces ∧
        (roundInput network node finalizedHeight latestHeight).countedFlow p.1 = some p.2 := by
  unfold roundFlows
  rw [← mem_countedFlows]
  apply mem_firstsBy_of_inj
  intro p hp q hq hkey
  rw [mem_countedFlows] at hp hq
  obtain ⟨tx, htx, n, hn, hpt⟩ := node.traces_sound p.1 hp.1
  obtain ⟨tx', htx', n', hn', hqt⟩ := node.traces_sound q.1 hq.1
  unfold flowKey at hkey
  rw [hpt, hqt] at hkey
  obtain ⟨rfl, rfl⟩ := traceKey_inj htx htx' hn hn' hkey
  have htrace : p.1 = q.1 := hpt.trans hqt.symm
  refine Prod.ext htrace (Option.some.inj ?_)
  rw [← hp.2, ← hq.2, htrace]

theorem roundFlows_nodup : (roundFlows network node finalizedHeight latestHeight).Nodup :=
  List.Nodup.of_map _ (firstsBy_nodup flowKey [] _)

/-- A flow that touches an own address makes the frame one that the node tells. -/
theorem touches_of_flow {t : EthTrace} {f : ValueFlow} (hf : traceValueFlow t = some f)
    (hown : f.isOwn ours = true) : touches ours t = true := by
  unfold ValueFlow.isOwn at hown
  unfold touches
  unfold traceValueFlow at hf
  cases htype : t.type with
  | call =>
    simp only [htype] at hf
    split at hf
    · cases hf
    · split at hf
      · cases hf
      · rw [Option.some.injEq] at hf
        subst hf
        simp only [Bool.or_eq_true] at hown
        rcases hown with h | h <;> simp [List.contains_iff_mem.mp h]
  | suicide =>
    simp only [htype] at hf
    split at hf
    · cases hf
    · rw [Option.some.injEq] at hf
      subst hf
      simp only [Bool.or_eq_true] at hown
      rcases hown with h | h <;> simp [List.contains_iff_mem.mp h]
  | create => simp [htype] at hf
  | reward => simp [htype] at hf

/-- Among the flows that touch an own address, a round counts exactly those of the frames
that stand. -/
theorem mem_roundFlows_iff {p : EthTrace × ValueFlow} (hown : p.2.isOwn ours = true) :
    p ∈ roundFlows network node finalizedHeight latestHeight ↔ p ∈ liveFlows blocks := by
  rw [mem_roundFlows, mem_liveFlows]
  constructor
  · rintro ⟨ht, hc⟩
    obtain ⟨tx, htx, n, hn, hpt⟩ := node.traces_sound p.1 ht
    have hf : traceValueFlow (tx.trace n) = some p.2 := hpt ▸ countedFlow_sound hc
    rw [hpt, countedFlow_trace network node finalizedHeight latestHeight htx hn (hpt ▸ ht) hf hown]
      at hc
    by_cases hlive : n ∈ tx.live
    · exact ⟨tx, htx, n, hlive, hpt, hf⟩
    · rw [if_neg hlive] at hc
      cases hc
  · rintro ⟨tx, htx, n, hlive, hpt, hf⟩
    have hn := CallTree.live_subset hlive
    have ht : tx.trace n ∈ node.traces :=
      node.traces_complete tx htx n hn (touches_of_flow hf hown)
    refine ⟨hpt ▸ ht, ?_⟩
    rw [hpt, countedFlow_trace network node finalizedHeight latestHeight htx hn ht hf hown,
      if_pos hlive]

theorem roundFlows_sum :
    ((roundFlows network node finalizedHeight latestHeight).map fun p => p.2.change ours).sum =
      ((liveFlows blocks).map fun p => p.2.change ours).sum := by
  apply sum_map_eq_of_nodup _ (roundFlows_nodup network node finalizedHeight latestHeight)
    (liveFlows_nodup blocks)
  · intro p hp
    cases hown : p.2.isOwn ours with
    | true =>
      exact Or.inl ((mem_roundFlows_iff network node finalizedHeight latestHeight hown).mp hp)
    | false => exact Or.inr (change_eq_zero hown)
  · intro p hp
    cases hown : p.2.isOwn ours with
    | true =>
      exact Or.inl ((mem_roundFlows_iff network node finalizedHeight latestHeight hown).mpr hp)
    | false => exact Or.inr (change_eq_zero hown)

end Sum

/-- What the program reads of a frame's effect: nothing for a creation. -/
def Frame.readChange (ours : List Text) (f : Frame) : ℤ :=
  if f.type = .create then 0 else f.change ours

theorem change_of_flow (tx : EthTransaction) (n : List ℕ × Frame) :
    (((traceValueFlow (tx.trace n)).map fun f => (tx.trace n, f)).toList.map
      fun p => p.2.change ours).sum = n.2.readChange ours := by
  rw [traceValueFlow_trace]
  unfold Frame.readChange Frame.change
  by_cases htype : n.2.type = .create
  · simp [htype]
  · rw [if_neg htype, if_neg htype]
    cases hflow : n.2.flow with
    | none => simp
    | some f =>
      by_cases hv : f.value = 0
      · simp [Option.filter, hv, ValueFlow.change]
      · simp [Option.filter, hv]

theorem liveFlows_sum (blocks : EthBlocks) :
    ((liveFlows blocks).map fun p => p.2.change ours).sum =
      (blocks.txs.map fun tx => (tx.live.map fun n => n.2.readChange ours).sum).sum := by
  have htx : ∀ (tx : EthTransaction) (ns : List (List ℕ × Frame)),
      ((ns.filterMap fun n => (traceValueFlow (tx.trace n)).map fun f => (tx.trace n, f)).map
        fun p => p.2.change ours).sum = (ns.map fun n => n.2.readChange ours).sum := by
    intro tx ns
    induction ns with
    | nil => simp
    | cons n ns ih =>
      have hn : _ = n.2.readChange ours := change_of_flow tx n
      rw [List.map_cons, List.sum_cons, ← ih, ← hn]
      cases hf : traceValueFlow (tx.trace n) <;> simp [hf]
  unfold liveFlows
  induction blocks.txs with
  | nil => simp
  | cons tx txs ih =>
    rw [List.flatMap_cons, List.map_append, List.sum_append, List.map_cons, List.sum_cons, ih, htx]

/-! ## Logs and fees -/

theorem token_ne_eth {network : WalletNetwork} {a : Text × AssetInfo}
    (h : a ∈ tokensOf network) : a.2.code ≠ .eth := by
  unfold tokensOf at h
  obtain ⟨i, hi, hmap⟩ := List.mem_filterMap.mp h
  obtain ⟨contract, hc, rfl⟩ := Option.map_eq_some_iff.mp hmap
  -- the native asset has no contract
  cases network <;> simp only [assets, List.mem_cons, List.not_mem_nil, or_false] at hi
  · subst hi; cases hc
  · subst hi; cases hc
  · rcases hi with rfl | rfl | rfl
    · cases hc
    · simp
    · simp
  · rcases hi with rfl | rfl | rfl
    · cases hc
    · simp
    · simp

/-- A log is an observation of a token. -/
theorem logObservation_asset {input : EthSyncInput} {network : WalletNetwork}
    (htokens : input.tokens = tokensOf network) {log : EthLog} {o : TransferObservation}
    (h : o ∈ input.logObservations log) : o.asset ≠ .eth := by
  unfold EthSyncInput.logObservations at h
  split at h
  · cases h
  · split at h
    · cases h
    · rename_i asset htoken
      have hasset : asset.code ≠ .eth := by
        obtain ⟨a, ha, rfl⟩ := Option.map_eq_some_iff.mp htoken
        have hmem := List.mem_of_find?_eq_some ha
        rw [List.mem_reverse, htokens] at hmem
        exact token_ne_eth hmem
      split at h
      · cases h
      · dsimp only at h
        split at h
        · cases h
        · split at h
          · cases h
          · rcases List.mem_append.mp h with h | h
            · split at h
              · rw [List.mem_singleton.mp h]
                exact hasset
              · cases h
            · split at h
              · rw [List.mem_singleton.mp h]
                exact hasset
              · cases h

theorem ethNet_of_tokens {os : List TransferObservation} (h : ∀ o ∈ os, o.asset ≠ .eth) :
    ethNet os = 0 := by
  unfold ethNet
  apply List.sum_eq_zero
  intro z hz
  obtain ⟨o, ho, rfl⟩ := List.mem_map.mp hz
  rw [if_neg (h o ho)]

theorem ethNet_logs {input : EthSyncInput} {network : WalletNetwork}
    (htokens : input.tokens = tokensOf network) :
    ethNet (input.logs.flatMap input.logObservations) = 0 := by
  apply ethNet_of_tokens
  intro o ho
  obtain ⟨log, -, ho⟩ := List.mem_flatMap.mp ho
  exact logObservation_asset htokens ho

theorem ethNet_fee (input : EthSyncInput) (fee : Text × TxFee) :
    ethNet (input.feeObservations fee) = -(fee.2.fee : ℤ) := by
  unfold EthSyncInput.feeObservations
  by_cases h : fee.2.fee = 0
  · simp [h]
  · simp [h, ethNet, EthSyncInput.observation]

section Fees

variable (network : WalletNetwork) (node : CompleteAnswers ours blocks)
  (finalizedHeight latestHeight : ℤ)

theorem ownSentTxids_nodup (traces : List EthTrace) (ours : List Text) :
    (ownSentTxids traces ours).Nodup := distinct_nodup _

/-- The own transactions are those that an own address sent. -/
theorem mem_ownSentTxids {h : Text} :
    h ∈ ownSentTxids node.traces ours ↔
      ∃ tx ∈ blocks.txs, ours.contains (lower tx.sender) = true ∧ h = tx.txid := by
  unfold ownSentTxids
  rw [mem_distinct, List.mem_map]
  constructor
  · rintro ⟨t, ht, rfl⟩
    rw [List.mem_filter] at ht
    obtain ⟨tx, htx, n, hn, rfl⟩ := node.traces_sound t ht.1
    have hroot : n = ([], tx.calls.root) := by
      apply EthTransaction.eq_of_path hn tx.root_mem
      have := ht.2
      simp only [Bool.and_eq_true, decide_eq_true_eq] at this
      exact this.1.1
    have hown := ht.2
    rw [Bool.and_eq_true] at hown
    refine ⟨tx, htx, ?_, rfl⟩
    have hsender : lowerOf (tx.trace n).action.fromAddr = lower tx.sender := by
      rw [hroot]
      change lowerOf tx.calls.root.action.fromAddr = lower tx.sender
      rw [tx.calls_sender]
      rfl
    rw [← hsender]
    exact hown.2
  · rintro ⟨tx, htx, hown, rfl⟩
    have hsender : lowerOf (tx.trace ([], tx.calls.root)).action.fromAddr = lower tx.sender := by
      change lowerOf tx.calls.root.action.fromAddr = lower tx.sender
      rw [tx.calls_sender]
      rfl
    have ht : tx.trace ([], tx.calls.root) ∈ node.traces := by
      apply node.traces_complete tx htx _ tx.root_mem
      unfold touches
      rw [List.any_cons, hsender, hown, Bool.true_or]
    refine ⟨_, List.mem_filter.mpr ⟨ht, ?_⟩, rfl⟩
    rw [hsender, hown, Bool.and_true, Bool.and_eq_true]
    refine ⟨decide_eq_true rfl, decide_eq_true ?_⟩
    intro hnil
    exact tx.hash_ne (by
      change tx.hash = [] at hnil
      rw [hnil]
      rfl)

/-- The fee that a receipt tells. -/
def feeOf (node : NodeAnswers) (h : Text) : ℤ :=
  match node.receipt h with
  | none => 0
  | some r => -((r.gasUsed * r.effectiveGasPrice : ℕ) : ℤ)

theorem feeEntries_sum (input : EthSyncInput) (candidates own : List Text)
    (h : ∀ txid ∈ own, txid ∈ candidates) :
    ((own.filterMap fun txid => if candidates.contains txid then
      (node.receipt txid).map fun r => (txid, (⟨r.gasUsed * r.effectiveGasPrice, r.fromAddr,
        r.blockNumber, r.blockHash⟩ : TxFee)) else none).map
          fun fee => ethNet (input.feeObservations fee)).sum =
      (own.map (feeOf node.toNodeAnswers)).sum := by
  induction own with
  | nil => simp
  | cons txid own ih =>
    have ih := ih fun x hx => h x (List.mem_cons_of_mem _ hx)
    have hmem : candidates.contains txid = true := List.contains_iff_mem.mpr (h txid (by simp))
    rw [List.filterMap_cons, List.map_cons, List.sum_cons, ← ih, if_pos hmem]
    unfold feeOf
    cases node.receipt txid with
    | none => simp
    | some r => simp [ethNet_fee]

theorem ethNet_fees :
    ethNet ((roundInput network node finalizedHeight latestHeight).fees.flatMap
      (roundInput network node finalizedHeight latestHeight).feeObservations) =
        ((ownSentTxids node.traces ours).map (feeOf node.toNodeAnswers)).sum := by
  rw [ethNet_flatMap]
  apply feeEntries_sum
  intro h hh
  obtain ⟨tx, -, -, rfl⟩ := (mem_ownSentTxids node).mp hh
  rw [List.mem_filter, mem_distinct]
  exact ⟨List.mem_append_right _ hh, decide_eq_true tx.hash_ne⟩

/-- The fees that are booked are those of the own transactions. -/
theorem fees_sum : ((ownSentTxids node.traces ours).map (feeOf node.toNodeAnswers)).sum =
    (blocks.txs.map fun tx => if ours.contains (lower tx.sender) then -(tx.fee : ℤ) else 0).sum := by
  let sent := blocks.txs.filter fun tx => ours.contains (lower tx.sender)
  have hsent : (sent.map (·.txid)).Nodup :=
    blocks.distinct_hashes.sublist (List.filter_sublist.map _)
  have hmem : ∀ h, h ∈ ownSentTxids node.traces ours ↔ h ∈ sent.map (·.txid) := by
    intro h
    rw [mem_ownSentTxids, List.mem_map]
    refine exists_congr fun tx => ?_
    rw [List.mem_filter, and_assoc]
    exact and_congr_right fun _ => and_congr_right fun _ => eq_comm
  rw [sum_map_eq_of_nodup (feeOf node.toNodeAnswers) (ownSentTxids_nodup _ _) hsent
    (fun h hh => Or.inl ((hmem h).mp hh)) (fun h hh => Or.inl ((hmem h).mpr hh)), List.map_map]
  have hfee : ∀ tx ∈ blocks.txs, feeOf node.toNodeAnswers tx.txid = -(tx.fee : ℤ) := by
    intro tx htx
    unfold feeOf
    rw [node.receipts_told tx htx]
    rfl
  unfold sent
  generalize blocks.txs = txs at hfee ⊢
  induction txs with
  | nil => simp
  | cons tx txs ih =>
    have ih := ih fun x hx => hfee x (List.mem_cons_of_mem _ hx)
    rw [List.map_cons, List.sum_cons, ← ih, List.filter_cons]
    by_cases hown : ours.contains (lower tx.sender) = true
    · rw [if_pos hown, if_pos hown, List.map_cons, List.sum_cons, Function.comp_apply,
        hfee tx (by simp)]
    · rw [if_neg hown, if_neg hown, zero_add]

/-- What the observations of a round add up to. -/
theorem ethNet_round :
    ethNet (ethObservations (roundInput network node finalizedHeight latestHeight)) =
      (blocks.txs.map fun tx => (tx.live.map fun n => n.2.readChange ours).sum +
        if ours.contains (lower tx.sender) then -(tx.fee : ℤ) else 0).sum := by
  unfold ethObservations
  have hflows : ethNet ((roundInput network node finalizedHeight latestHeight).traceObservations []
      (roundInput network node finalizedHeight latestHeight).traces) =
        ((roundFlows network node finalizedHeight latestHeight).map fun p => p.2.change ours).sum := by
    rw [traceObservations_eq, ethNet_flatMap]
    unfold roundFlows
    congr 1
    exact List.map_congr_left fun p _ => ethNet_flow _ p.1 p.2
  rw [ethNet_append, ethNet_append, hflows, ethNet_logs (show _ = tokensOf network from rfl), ethNet_fees,
    fees_sum, roundFlows_sum, liveFlows_sum, add_zero, ← List.sum_map_add]

end Fees

/-! ## How often a frame is counted -/

@[simp] theorem timesObserved_append (os ps : List TransferObservation) (txid : Text)
    (place : OutputRef) :
    timesObserved (os ++ ps) txid place = timesObserved os txid place + timesObserved ps txid place := by
  simp [timesObserved]

theorem timesObserved_eq_zero {os : List TransferObservation} {txid : Text} {place : OutputRef}
    (h : ∀ o ∈ os, o.asset = .eth → o.outputRef ≠ place) : timesObserved os txid place = 0 := by
  unfold timesObserved
  rw [List.countP_eq_zero]
  intro o ho hat
  simp only [Bool.and_eq_true, decide_eq_true_eq] at hat
  exact h o ho hat.1.1 hat.2

theorem traceOutput_ne_fee (d : Direction) (path : List ℕ) : traceOutput d path ≠ feeOutput := by
  intro h
  have htext := congrArg (fun r => r.text[4]?) h
  cases d with
  | incoming =>
    have : ch 'r' = ch 'f' := Option.some.inj htext
    exact absurd this (by decide)
  | outgoing =>
    have : ch 't' = ch 'f' := Option.some.inj htext
    exact absurd this (by decide)

theorem traceOutput_inj {d d' : Direction} {p p' : List ℕ}
    (h : traceOutput d p = traceOutput d' p') : d = d' ∧ p = p' := by
  have htext : d.prefixText ++ traceRef p = d'.prefixText ++ traceRef p' := congrArg OutputRef.text h
  have hd : d = d' := by
    have hhead := congrArg List.head? htext
    cases d <;> cases d'
    · rfl
    · exact absurd (Option.some.inj hhead : ch 'i' = ch 'o') (by decide)
    · exact absurd (Option.some.inj hhead : ch 'o' = ch 'i') (by decide)
    · rfl
  subst hd
  exact ⟨rfl, traceRef_injective (List.append_cancel_left htext)⟩

/-- The observations of one flow: one for each own side. -/
theorem timesObserved_flow (input : EthSyncInput) (tx tx' : EthTransaction)
    (n n' : List ℕ × Frame) (f : ValueFlow) (d : Direction) :
    timesObserved (input.flowObservations (tx'.trace n') f) tx.txid (traceOutput d n.1) =
      if tx'.txid = tx.txid ∧ n'.1 = n.1 ∧ input.ours.contains (f.side d) = true then 1 else 0 := by
  have hplace : ∀ d', traceOutput d' (tx'.trace n').traceAddress = traceOutput d n.1 ↔
      d' = d ∧ n'.1 = n.1 := fun d' => ⟨traceOutput_inj, fun h => by rw [h.1, ← h.2]; rfl⟩
  unfold EthSyncInput.flowObservations
  rw [timesObserved_append]
  cases d with
  | incoming =>
    by_cases hto : f.toAddr ∈ input.ours <;> by_cases hfrom : f.fromAddr ∈ input.ours <;>
      simp [hto, hfrom, timesObserved, EthSyncInput.observation, hplace, ValueFlow.side,
        List.countP_cons]
  | outgoing =>
    by_cases hto : f.toAddr ∈ input.ours <;> by_cases hfrom : f.fromAddr ∈ input.ours <;>
      simp [hto, hfrom, timesObserved, EthSyncInput.observation, hplace, ValueFlow.side,
        List.countP_cons]

section Count

variable (network : WalletNetwork) (node : CompleteAnswers ours blocks)
  (finalizedHeight latestHeight : ℤ)

/-- Neither a log nor a fee is observed at the place of a frame. -/
theorem timesObserved_round (tx : EthTransaction) (n : List ℕ × Frame) (d : Direction) :
    timesObserved (ethObservations (roundInput network node finalizedHeight latestHeight)) tx.txid
      (traceOutput d n.1) =
        ((roundFlows network node finalizedHeight latestHeight).map fun p =>
          timesObserved ((roundInput network node finalizedHeight latestHeight).flowObservations
            p.1 p.2) tx.txid (traceOutput d n.1)).sum := by
  unfold ethObservations
  have hlogs : timesObserved ((roundInput network node finalizedHeight latestHeight).logs.flatMap
      (roundInput network node finalizedHeight latestHeight).logObservations) tx.txid
        (traceOutput d n.1) = 0 := by
    apply timesObserved_eq_zero
    intro o ho hasset
    obtain ⟨log, -, ho⟩ := List.mem_flatMap.mp ho
    exact absurd hasset (logObservation_asset (show _ = tokensOf network from rfl) ho)
  have hfees : timesObserved ((roundInput network node finalizedHeight latestHeight).fees.flatMap
      (roundInput network node finalizedHeight latestHeight).feeObservations) tx.txid
        (traceOutput d n.1) = 0 := by
    apply timesObserved_eq_zero
    intro o ho _
    obtain ⟨fee, -, ho⟩ := List.mem_flatMap.mp ho
    unfold EthSyncInput.feeObservations at ho
    split at ho
    · cases ho
    · rw [List.mem_singleton.mp ho]
      exact (traceOutput_ne_fee d n.1).symm
  rw [timesObserved_append, timesObserved_append, hlogs, hfees, traceObservations_eq, add_zero,
    add_zero]
  unfold timesObserved
  rw [List.countP_flatMap]
  rfl

/-- The program reads a movement of value on this own side. -/
def Frame.readOwn (ours : List Text) (f : Frame) (d : Direction) : Bool :=
  f.type ≠ .create && f.movesOwn ours d

theorem readOwn_iff {tx : EthTransaction} {n : List ℕ × Frame} {d : Direction} :
    n.2.readOwn ours d = true ↔
      ∃ f, traceValueFlow (tx.trace n) = some f ∧ ours.contains (f.side d) = true := by
  rw [traceValueFlow_trace]
  unfold Frame.readOwn Frame.movesOwn
  by_cases htype : n.2.type = .create
  · simp [htype]
  · cases hflow : n.2.flow with
    | none => simp [htype]
    | some f => by_cases hv : f.value = 0 <;> simp [htype, hv, Option.filter]

theorem isOwn_of_side {f : ValueFlow} {d : Direction} (h : ours.contains (f.side d) = true) :
    f.isOwn ours = true := by
  unfold ValueFlow.isOwn
  cases d with
  | incoming => rw [show ours.contains f.toAddr = true from h, Bool.true_or]
  | outgoing => rw [show ours.contains f.fromAddr = true from h, Bool.or_true]

/-- A frame is observed once on an own side if it stands and the program reads it, and else
not at all. -/
theorem timesObserved_eq {tx : EthTransaction} (htx : tx ∈ blocks.txs) {n : List ℕ × Frame}
    (hn : n ∈ tx.frames) (d : Direction) :
    timesObserved (ethObservations (roundInput network node finalizedHeight latestHeight)) tx.txid
      (traceOutput d n.1) = if n ∈ tx.live ∧ n.2.readOwn ours d = true then 1 else 0 := by
  rw [timesObserved_round]
  -- what one counted flow contributes
  have hpart : ∀ p ∈ roundFlows network node finalizedHeight latestHeight,
      timesObserved ((roundInput network node finalizedHeight latestHeight).flowObservations
        p.1 p.2) tx.txid (traceOutput d n.1) =
          if p.1 = tx.trace n ∧ ours.contains (p.2.side d) = true then 1 else 0 := by
    intro p hp
    have hmem := (mem_roundFlows network node finalizedHeight latestHeight).mp hp
    obtain ⟨tx', htx', n', hn', hpt⟩ := node.traces_sound p.1 hmem.1
    rw [hpt, timesObserved_flow]
    apply if_congr _ rfl rfl
    constructor
    · rintro ⟨hid, hpath, hside⟩
      have heq := EthBlocks.eq_of_txid htx' htx hid
      subst heq
      exact ⟨by rw [EthTransaction.eq_of_path hn' hn hpath], hside⟩
    · rintro ⟨htrace, hside⟩
      refine ⟨?_, congrArg EthTrace.traceAddress htrace, hside⟩
      exact congrArg (fun t => lowerOf t.transactionHash) htrace
  by_cases h : n ∈ tx.live ∧ n.2.readOwn ours d = true
  · obtain ⟨f, hf, hside⟩ := (readOwn_iff : _ ↔ ∃ f, traceValueFlow (tx.trace n) = some f ∧ _).mp h.2
    have hp : (tx.trace n, f) ∈ roundFlows network node finalizedHeight latestHeight :=
      (mem_roundFlows_iff network node finalizedHeight latestHeight (isOwn_of_side hside)).mpr
        (mem_liveFlows.2 ⟨tx, htx, n, h.1, rfl, hf⟩)
    rw [if_pos h, sum_map_single _ (roundFlows_nodup network node finalizedHeight latestHeight) hp]
    · rw [hpart _ hp, if_pos ⟨rfl, hside⟩]
    · intro q hq hne
      rw [hpart q hq, if_neg]
      rintro ⟨htrace, -⟩
      apply hne
      have hmem := (mem_roundFlows network node finalizedHeight latestHeight).mp hq
      refine Prod.ext htrace (Option.some.inj ?_)
      rw [← countedFlow_sound hmem.2, htrace, hf]
  · rw [if_neg h, List.sum_eq_zero_iff]
    intro m hm
    obtain ⟨p, hp, rfl⟩ := List.mem_map.mp hm
    rw [hpart p hp, if_neg]
    rintro ⟨htrace, hside⟩
    obtain ⟨tx', htx', n', hlive, hpt, hf⟩ := mem_liveFlows.1
      ((mem_roundFlows_iff network node finalizedHeight latestHeight (isOwn_of_side hside)).mp hp)
    rw [htrace] at hpt
    have hid := congrArg (fun t => lowerOf t.transactionHash) hpt
    have heq := EthBlocks.eq_of_txid htx htx' hid
    subst heq
    have hnn := trace_injective hn (CallTree.live_subset hlive) hpt
    subst hnn
    exact h ⟨hlive, readOwn_iff.2 ⟨p.2, hf, hside⟩⟩

end Count

/-! ## Conservation -/

theorem change_eq_zero_of_movesOwn {f : Frame} (h : ∀ d, f.movesOwn ours d = false) :
    f.change ours = 0 := by
  have hin := h .incoming
  have hout := h .outgoing
  unfold Frame.movesOwn at hin hout
  unfold Frame.change
  cases hflow : f.flow with
  | none => rfl
  | some flow =>
    simp only [hflow] at hin hout ⊢
    by_cases hv : flow.value = 0
    · simp [ValueFlow.change, hv]
    · apply change_eq_zero
      unfold ValueFlow.isOwn
      simp only [ne_eq, hv, not_false_eq_true, decide_true, Bool.true_and] at hin hout
      exact Bool.or_eq_false_iff.mpr ⟨hin, hout⟩

theorem readChange_eq {blocks : EthBlocks} (h : NoOwnCreation ours blocks) {tx : EthTransaction}
    (htx : tx ∈ blocks.txs) {n : List ℕ × Frame} (hn : n ∈ tx.live) :
    n.2.readChange ours = n.2.change ours := by
  unfold Frame.readChange
  by_cases htype : n.2.type = .create
  · rw [if_pos htype, change_eq_zero_of_movesOwn (h tx htx n hn htype)]
  · rw [if_neg htype]

/-- A creation that moves own value is not observed. -/
theorem noOwnCreation_of_conserves (network : WalletNetwork) (node : CompleteAnswers ours blocks)
    (finalizedHeight latestHeight : ℤ)
    (h : ConservesValue ours blocks
      (ethObservations (roundInput network node finalizedHeight latestHeight))) :
    NoOwnCreation ours blocks := by
  intro tx htx n hlive htype d
  by_contra hmoves
  rw [Bool.not_eq_false] at hmoves
  have hn := CallTree.live_subset hlive
  have hunread : ¬ (n ∈ tx.live ∧ n.2.readOwn ours d = true) := by
    rintro ⟨-, hread⟩
    unfold Frame.readOwn at hread
    simp [htype] at hread
  have hcount := h.counted tx htx n hn d
  rw [timesObserved_eq network node finalizedHeight latestHeight htx hn, if_neg hunread,
    if_pos ⟨hlive, hmoves⟩] at hcount
  cases hcount

/-- The observations of a round conserve value, each frame being counted once, if and only if
no creation that stands moves value from or to an own address. -/
theorem ether_conserved_iff (network : WalletNetwork) (ours : List Text) (blocks : EthBlocks)
    (node : CompleteAnswers ours blocks) (finalizedHeight latestHeight : ℤ) :
    ConservesValue ours blocks (ethObservations
      (syncInput network ours node.toNodeAnswers finalizedHeight latestHeight)) ↔
        NoOwnCreation ours blocks := by
  constructor
  · exact noOwnCreation_of_conserves network node finalizedHeight latestHeight
  · intro h
    refine ⟨?_, ?_⟩
    · rw [ethNet_round]
      congr 1
      apply List.map_congr_left
      intro tx htx
      have hlive : tx.live.map (fun n => n.2.readChange ours) =
          tx.live.map fun n => n.2.change ours :=
        List.map_congr_left fun n hn => readChange_eq h htx hn
      unfold EthTransaction.balanceChange
      rw [hlive, CallTree.effect_eq Frame.failed (Frame.change ours) [] tx.calls]
      by_cases hown : ours.contains (lower tx.sender) = true
      · rw [if_pos hown, if_pos hown]
        rfl
      · rw [if_neg hown, if_neg hown, add_zero, sub_zero]
        rfl
    · intro tx htx n hn d
      rw [timesObserved_eq network node finalizedHeight latestHeight htx hn]
      apply if_congr _ rfl rfl
      apply and_congr_right
      intro hlive
      unfold Frame.readOwn
      by_cases htype : n.2.type = .create
      · rw [h tx htx n hlive htype d]
        simp
      · simp [htype]

/-- A node that tells everything of the blocks. -/
def EthBlocks.told (ours : List Text) (blocks : EthBlocks) : CompleteAnswers ours blocks where
  traces := blocks.txs.flatMap fun tx => tx.frames.map tx.trace
  logs := []
  receipt := fun h => (blocks.txs.find? fun tx => tx.txid = h).map (·.receipt)
  traceTransaction := fun h =>
    ((blocks.txs.find? fun tx => tx.txid = h).map fun tx => tx.frames.map tx.trace).getD []
  blockTimes := fun _ => none
  traces_sound := by
    intro t ht
    obtain ⟨tx, htx, ht⟩ := List.mem_flatMap.mp ht
    obtain ⟨n, hn, rfl⟩ := List.mem_map.mp ht
    exact ⟨tx, htx, n, hn, rfl⟩
  traces_complete := fun tx htx n hn _ =>
    List.mem_flatMap.mpr ⟨tx, htx, List.mem_map.mpr ⟨n, hn, rfl⟩⟩
  receipts_told := by
    intro tx htx
    rw [blocks.find_txid htx]
    rfl
  frames_told := by
    intro tx htx
    rw [blocks.find_txid htx]
    rfl

/-- An own address pays five wei into the contract that its transaction creates. -/
def creation : EthTransaction where
  hash := js "0x01"
  sender := js "0xaa"
  gasUsed := 21000
  effectiveGasPrice := 1
  blockNumber := 7
  blockHash := js "0x07"
  calls := .node
    { type := .create
      action := ⟨some (js "0xaa"), none, some 5, none, none, none, none⟩
      created := some (js "0xcc")
      error := none } []
  hash_ne := by decide
  calls_sender := rfl

def creationBlock : EthBlocks := ⟨[creation], List.nodup_singleton _⟩

/-- The value that goes into a new contract is not observed. -/
theorem creation_loses_value :
    ¬ ConservesValue [js "0xaa"] creationBlock (ethObservations
      (syncInput .ethereumSepolia [js "0xaa"] (creationBlock.told [js "0xaa"]).toNodeAnswers 7 9)) := by
  intro h
  have hnone := noOwnCreation_of_conserves .ethereumSepolia (creationBlock.told [js "0xaa"]) 7 9 h
  have hlive : ([], creation.calls.root) ∈ creation.live := by decide
  have hmoves := hnone creation (List.mem_singleton.mpr rfl) _ hlive rfl .outgoing
  exact absurd hmoves (by decide)

end Klick
