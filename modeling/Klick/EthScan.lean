-- The scan of an Ethereum account (`ethScanRange`, `chunks` and the rounds of
-- `syncEthereum`): which blocks a round reads and how far the account counts
-- as read.
import Klick.EthTraces
import Klick.OrderedMap

open Js

namespace Klick

/-! ## The range of a round -/

structure ScanRange where
  lo : ℤ
  hi : ℤ
  nextSyncHeight : ℤ
deriving DecidableEq

/-- `ethScanRange` -/
def ethScanRange (syncHeight : Option ℤ) (startHeight finalizedHeight latestHeight maxBlocks : ℤ) :
    Option ScanRange :=
  let lo := max (syncHeight.getD (startHeight - 1) + 1) startHeight
  if lo > latestHeight then none
  else
    let hi := min latestHeight (lo + maxBlocks - 1)
    some ⟨lo, hi, max (syncHeight.getD (startHeight - 1)) (min hi finalizedHeight)⟩

/-- `chunks`, for a size that is not zero. -/
def chunks (lo hi : ℤ) (size : ℕ) : List (ℤ × ℤ) :=
  if lo ≤ hi ∧ 0 < size then (lo, min hi (lo + size - 1)) :: chunks (lo + size) hi size else []
termination_by (hi + 1 - lo).toNat

/-- `MAX_ETH_BLOCKS` -/
def maxEthBlocks : ℤ := 2000

/-- `TRACE_CHUNK` -/
def traceChunk : ℕ := 100

/-- `LOG_CHUNK` -/
def logChunk : ℕ := 2000

theorem ethScanRange_eq_some {syncHeight : Option ℤ} {start finalized latest maxBlocks : ℤ}
    {range : ScanRange}
    (h : ethScanRange syncHeight start finalized latest maxBlocks = some range) :
    range.lo = max (syncHeight.getD (start - 1) + 1) start ∧ range.lo ≤ latest ∧
      range.hi = min latest (range.lo + maxBlocks - 1) ∧
      range.nextSyncHeight = max (syncHeight.getD (start - 1)) (min range.hi finalized) := by
  unfold ethScanRange at h
  dsimp only at h
  split at h
  · cases h
  · rename_i hlo
    rw [Option.some.injEq] at h
    subst h
    exact ⟨rfl, by simpa using hlo, rfl, rfl⟩

theorem mem_chunks {size : ℕ} (hsize : 0 < size) {lo hi : ℤ} {c : ℤ × ℤ}
    (h : c ∈ chunks lo hi size) : lo ≤ c.1 ∧ c.2 ≤ hi := by
  fun_induction chunks lo hi size with
  | case1 lo hcond ih =>
    rcases List.mem_cons.mp h with rfl | h
    · exact ⟨le_rfl, by simp⟩
    · obtain ⟨h1, h2⟩ := ih h
      exact ⟨by omega, h2⟩
  | case2 lo hcond => cases h

/-- The chunks leave out no block of the range, and none stands in two of them. -/
theorem existsUnique_chunk {size : ℕ} (hsize : 0 < size) {lo hi h : ℤ} (hlo : lo ≤ h)
    (hhi : h ≤ hi) : ∃! c, c ∈ chunks lo hi size ∧ c.1 ≤ h ∧ h ≤ c.2 := by
  fun_induction chunks lo hi size with
  | case1 lo hcond ih =>
    by_cases hin : h ≤ lo + size - 1
    · refine ⟨(lo, min hi (lo + size - 1)), ⟨List.mem_cons_self, hlo, by simp; omega⟩, ?_⟩
      rintro c ⟨hc, h1, h2⟩
      rcases List.mem_cons.mp hc with rfl | hc
      · rfl
      · have := (mem_chunks hsize hc).1
        omega
    · obtain ⟨c, ⟨hc, h1, h2⟩, huniq⟩ := ih (by omega)
      refine ⟨c, ⟨List.mem_cons_of_mem _ hc, h1, h2⟩, ?_⟩
      rintro d ⟨hd, hd1, hd2⟩
      rcases List.mem_cons.mp hd with rfl | hd
      · simp at hd2
        omega
      · exact huniq d ⟨hd, hd1, hd2⟩
  | case2 lo hcond => omega

/-! ## Rounds -/

/-- The first block that is not older than the account, by bisection. A block that the node
does not tell counts as too old. -/
def findBlockByTime (timestamp : ℤ → Option ℤ) (target lo hi : ℤ) : ℤ :=
  if lo < hi then
    let mid := (lo + hi) / 2
    if (timestamp mid).all (· < target) then findBlockByTime timestamp target (mid + 1) hi
    else findBlockByTime timestamp target lo mid
  else lo
termination_by (hi - lo).toNat

/-- A node as a round meets it. An answer for a range of blocks names no block before it, and
a transaction that is told in the range has its receipt in no block before it. -/
structure EthNode where
  latest : ℤ
  finalized : ℤ
  timestamp : ℤ → Option ℤ
  traceTo : ℤ × ℤ → List EthTrace
  traceFrom : ℤ × ℤ → List EthTrace
  logsTo : ℤ × ℤ → List EthLog
  logsFrom : ℤ × ℤ → List EthLog
  receipt : Text → Option EthReceipt
  traceTransaction : Text → List EthTrace
  blockTimes : Text → Option ℤ
  traces_in : ∀ c, ∀ t ∈ traceTo c ++ traceFrom c, c.1 ≤ t.blockNumber
  logs_in : ∀ c, ∀ l ∈ logsTo c ++ logsFrom c, c.1 ≤ l.blockNumber
  receipts_in : ∀ c, ∀ t ∈ traceTo c ++ traceFrom c, ∀ r,
    receipt (lowerOf t.transactionHash) = some r → c.1 ≤ r.blockNumber

/-- What a round reads of a range. -/
def EthNode.answers (node : EthNode) (range : ScanRange) : NodeAnswers where
  traces := (chunks range.lo range.hi traceChunk).flatMap fun c => node.traceTo c ++ node.traceFrom c
  logs := (chunks range.lo range.hi logChunk).flatMap fun c => node.logsTo c ++ node.logsFrom c
  receipt := node.receipt
  traceTransaction := node.traceTransaction
  blockTimes := node.blockTimes

variable {Id : Type}

structure EthAccount (Id : Type) where
  network : WalletNetwork
  ours : List Text
  /-- The time from which on the account is read. -/
  historyFrom : ℤ
  startHeight : Option ℤ
  syncHeight : Option ℤ
  table : TransferTable Id

/-- A round: what the node answers, what the run knows besides, and whether it fails on the
way, so that nothing is stored. -/
structure SyncRound where
  node : EthNode
  context : StoreContext
  fails : Bool

/-- A range that was read, with the height that was final at that time. -/
structure BlockReading where
  range : ScanRange
  finalized : ℤ

/-- The account with all that was read for it. -/
structure SyncState (Id : Type) where
  account : EthAccount Id
  readings : List BlockReading

/-- Traces and logs of the block were asked for. -/
def BlockReading.Reads (r : BlockReading) (h : ℤ) : Prop :=
  (∃ c ∈ chunks r.range.lo r.range.hi traceChunk, c.1 ≤ h ∧ h ≤ c.2) ∧
    ∃ c ∈ chunks r.range.lo r.range.hi logChunk, c.1 ≤ h ∧ h ≤ c.2

variable [DecidableEq Id]

/-- `syncEthereum` with the storing of its result. -/
def SyncState.step (ids : KeySupply Id) (st : SyncState Id) (r : SyncRound) : SyncState Id :=
  if r.fails then st
  else
    let a := st.account
    let start := a.startHeight.getD
      (findBlockByTime r.node.timestamp a.historyFrom 0 r.node.latest)
    match ethScanRange a.syncHeight start r.node.finalized r.node.latest maxEthBlocks with
    | none =>
      { st with account := { a with
          startHeight := some start
          table := a.table.reconcile ids r.context [] ⟨[], none⟩ } }
    | some range =>
      let observations := ethObservations (syncInput a.network a.ours (r.node.answers range)
        r.node.finalized r.node.latest)
      { account := { a with
          startHeight := some start
          syncHeight := some range.nextSyncHeight
          table := a.table.reconcile ids r.context observations
            ⟨[], some (range.lo, range.hi)⟩ }
        readings := st.readings ++ [⟨range, r.node.finalized⟩] }

def SyncState.run (ids : KeySupply Id) (st : SyncState Id) (rounds : List SyncRound) :
    SyncState Id := rounds.foldl (SyncState.step ids) st

def TransferTable.empty : TransferTable Id := ⟨[], List.nodup_nil, List.nodup_nil⟩

/-- A new account. -/
def SyncState.fresh (network : WalletNetwork) (ours : List Text) (historyFrom : ℤ) : SyncState Id :=
  ⟨⟨network, ours, historyFrom, none, none, .empty⟩, []⟩

/-! ## What a round observes -/

/-- The observation stands in the block, and is confirmed when that block is final. -/
def Located (input : EthSyncInput) (o : TransferObservation) (h : ℤ) : Prop :=
  o.blockHeight = some h ∧ o.status = input.statusAt h

theorem flow_located {input : EthSyncInput} {t : EthTrace} {f : ValueFlow}
    {o : TransferObservation} (h : o ∈ input.flowObservations t f) :
    Located input o t.blockNumber := by
  unfold EthSyncInput.flowObservations at h
  rcases List.mem_append.mp h with h | h
  · split at h
    · rw [List.mem_singleton.mp h]
      exact ⟨rfl, rfl⟩
    · cases h
  · split at h
    · rw [List.mem_singleton.mp h]
      exact ⟨rfl, rfl⟩
    · cases h

theorem trace_located {input : EthSyncInput} {seen : List Text} {ts : List EthTrace}
    {o : TransferObservation} (h : o ∈ input.traceObservations seen ts) :
    ∃ t ∈ ts, Located input o t.blockNumber := by
  induction ts generalizing seen with
  | nil => cases h
  | cons t ts ih =>
    have hrest : ∀ {seen : List Text}, o ∈ input.traceObservations seen ts →
        ∃ u ∈ t :: ts, Located input o u.blockNumber := by
      intro seen h
      obtain ⟨u, hu, hl⟩ := ih h
      exact ⟨u, List.mem_cons_of_mem _ hu, hl⟩
    unfold EthSyncInput.traceObservations at h
    split at h
    · exact hrest h
    · split at h
      · exact hrest h
      · rcases List.mem_append.mp h with h | h
        · exact ⟨t, List.mem_cons_self, flow_located h⟩
        · exact hrest h

theorem log_located {input : EthSyncInput} {log : EthLog} {o : TransferObservation}
    (h : o ∈ input.logObservations log) : Located input o log.blockNumber := by
  unfold EthSyncInput.logObservations at h
  split at h
  · cases h
  · split at h
    · cases h
    · split at h
      · cases h
      · dsimp only at h
        split at h
        · cases h
        · split at h
          · cases h
          · rcases List.mem_append.mp h with h | h
            · split at h
              · rw [List.mem_singleton.mp h]
                exact ⟨rfl, rfl⟩
              · cases h
            · split at h
              · rw [List.mem_singleton.mp h]
                exact ⟨rfl, rfl⟩
              · cases h

theorem fee_located {input : EthSyncInput} {fee : Text × TxFee} {o : TransferObservation}
    (h : o ∈ input.feeObservations fee) : Located input o fee.2.blockHeight := by
  unfold EthSyncInput.feeObservations at h
  split at h
  · cases h
  · rw [List.mem_singleton.mp h]
    exact ⟨rfl, rfl⟩

/-- An observation stands in a block that the answers name. -/
theorem observation_located {input : EthSyncInput} {lo : ℤ}
    (htraces : ∀ t ∈ input.traces, lo ≤ t.blockNumber) (hlogs : ∀ l ∈ input.logs, lo ≤ l.blockNumber)
    (hfees : ∀ f ∈ input.fees, lo ≤ f.2.blockHeight) {o : TransferObservation}
    (ho : o ∈ ethObservations input) : ∃ h, lo ≤ h ∧ Located input o h := by
  unfold ethObservations at ho
  rw [List.mem_append, List.mem_append] at ho
  rcases ho with (ho | ho) | ho
  · obtain ⟨t, ht, hl⟩ := trace_located ho
    exact ⟨_, htraces t ht, hl⟩
  · obtain ⟨log, hlog, ho⟩ := List.mem_flatMap.mp ho
    exact ⟨_, hlogs log hlog, log_located ho⟩
  · obtain ⟨fee, hfee, ho⟩ := List.mem_flatMap.mp ho
    exact ⟨_, hfees fee hfee, fee_located ho⟩

/-- An open observation stands above the final height, and in no block before the range. -/
theorem pending_above {node : EthNode} {network : WalletNetwork} {ours : List Text}
    {range : ScanRange} {o : TransferObservation}
    (ho : o ∈ ethObservations (syncInput network ours (node.answers range) node.finalized
      node.latest)) (hp : o.status = .pending) :
    ∃ h, o.blockHeight = some h ∧ range.lo ≤ h ∧ node.finalized < h := by
  have htraces : ∀ t ∈ (node.answers range).traces, range.lo ≤ t.blockNumber ∧
      ∀ r, node.receipt (lowerOf t.transactionHash) = some r → range.lo ≤ r.blockNumber := by
    intro t ht
    obtain ⟨c, hc, ht⟩ := List.mem_flatMap.mp ht
    have hlo := (mem_chunks (by decide) hc).1
    exact ⟨hlo.trans (node.traces_in c t ht), fun r hr => hlo.trans (node.receipts_in c t ht r hr)⟩
  have hlogs : ∀ l ∈ (node.answers range).logs, range.lo ≤ l.blockNumber := by
    intro l hl
    obtain ⟨c, hc, hl⟩ := List.mem_flatMap.mp hl
    exact (mem_chunks (by decide) hc).1.trans (node.logs_in c l hl)
  have hfees : ∀ f ∈ (syncInput network ours (node.answers range) node.finalized node.latest).fees,
      range.lo ≤ f.2.blockHeight := by
    intro f hf
    obtain ⟨h, hh, hf⟩ := List.mem_filterMap.mp hf
    split at hf
    · obtain ⟨r, hr, rfl⟩ := Option.map_eq_some_iff.mp hf
      rw [ownSentTxids, mem_distinct, List.mem_map] at hh
      obtain ⟨t, ht, rfl⟩ := hh
      exact (htraces t (List.mem_of_mem_filter ht)).2 r hr
    · cases hf
  obtain ⟨h, hlo, hheight, hstatus⟩ := observation_located (fun t ht => (htraces t ht).1) hlogs hfees ho
  refine ⟨h, hheight, hlo, ?_⟩
  rw [hp] at hstatus
  unfold EthSyncInput.statusAt at hstatus
  by_contra hfin
  have hfinal : h ≤ (syncInput network ours (node.answers range) node.finalized
      node.latest).finalizedHeight := not_lt.mp hfin
  rw [if_pos hfinal] at hstatus
  cases hstatus

/-! ## Invariants of a run -/

theorem TransferTable.observed_height {ids : KeySupply Id} {c : StoreContext} {t : TransferTable Id}
    {observed : List TransferObservation} {opts : PlanOpts} {s : StoredTransfer Id}
    (hs : s ∈ (t.reconcile ids c observed opts).rows) {o : TransferObservation}
    (ho : observationOf observed s.key = some o) : s.blockHeight = o.blockHeight := by
  have hc := (TransferTable.observed_row hs ho).2
  unfold changed at hc
  simp only [Bool.or_eq_false_iff, decide_eq_false_iff_not, not_not] at hc
  exact hc.2

/-- What is not observed and stands open was open before, outside the range. -/
theorem TransferTable.unobserved_pending {ids : KeySupply Id} {c : StoreContext}
    {t : TransferTable Id} {observed : List TransferObservation} {opts : PlanOpts}
    {s : StoredTransfer Id} (hs : s ∈ (t.reconcile ids c observed opts).rows)
    (ho : observationOf observed s.key = none) (hp : s.status = .pending) :
    s ∈ t.rows ∧ isGone opts s.existing = false := by
  have hgone := TransferTable.not_gone hs ho (by rw [hp]; simp)
  rcases TransferTable.mem_reconcile hs with ⟨r, hr, rfl⟩ | ⟨o, hso, -⟩
  · rw [TransferTable.fate_key] at ho
    unfold TransferTable.fate at hp hgone ⊢
    simp only [ho] at hp hgone ⊢
    split at hp
    · cases hp
    · rename_i hkept
      rw [if_neg hkept] at hgone ⊢
      exact ⟨hr, hgone⟩
  · rw [ho] at hso
    cases hso

structure ScanInv (st : SyncState Id) : Prop where
  unstarted : st.account.startHeight = none → st.account.syncHeight = none
  unread : st.account.syncHeight = none → ∀ r ∈ st.account.table.rows, r.status ≠ .pending
  level : ∀ b, st.account.startHeight = some b → ∀ s, st.account.syncHeight = some s → b - 1 ≤ s
  covered : ∀ b, st.account.startHeight = some b → ∀ s, st.account.syncHeight = some s →
    ∀ h, b ≤ h → h ≤ s → ∃ reading ∈ st.readings, reading.Reads h ∧ h ≤ reading.finalized
  pending : ∀ s, st.account.syncHeight = some s → ∀ r ∈ st.account.table.rows,
    r.status = .pending → ∀ h, r.blockHeight = some h → s < h

omit [DecidableEq Id] in
theorem ScanInv.fresh (network : WalletNetwork) (ours : List Text) (historyFrom : ℤ) :
    ScanInv (SyncState.fresh network ours historyFrom : SyncState Id) where
  unstarted _ := rfl
  unread _ _ hr := absurd hr List.not_mem_nil
  level _ h := nomatch h
  covered _ h := nomatch h
  pending _ h := nomatch h

/-- All that a round does to the heights. -/
theorem step_heights (ids : KeySupply Id) (st : SyncState Id) {r : SyncRound}
    (hok : r.fails = false) :
    ∃ start, (∀ b, st.account.startHeight = some b → start = b) ∧
      (st.step ids r).account.startHeight = some start ∧
      ((ethScanRange st.account.syncHeight start r.node.finalized r.node.latest maxEthBlocks = none ∧
        (st.step ids r).account.syncHeight = st.account.syncHeight ∧
        (st.step ids r).readings = st.readings ∧
        (st.step ids r).account.table = st.account.table.reconcile ids r.context [] ⟨[], none⟩) ∨
      ∃ range, ethScanRange st.account.syncHeight start r.node.finalized r.node.latest maxEthBlocks =
          some range ∧
        (st.step ids r).account.syncHeight = some range.nextSyncHeight ∧
        (st.step ids r).readings = st.readings ++ [⟨range, r.node.finalized⟩] ∧
        (st.step ids r).account.table = st.account.table.reconcile ids r.context
          (ethObservations (syncInput st.account.network st.account.ours (r.node.answers range)
            r.node.finalized r.node.latest)) ⟨[], some (range.lo, range.hi)⟩) := by
  refine ⟨st.account.startHeight.getD
    (findBlockByTime r.node.timestamp st.account.historyFrom 0 r.node.latest), ?_, ?_, ?_⟩
  · intro b hb
    rw [hb, Option.getD_some]
  · unfold SyncState.step
    rw [hok, if_neg Bool.false_ne_true]
    dsimp only
    split <;> rfl
  · unfold SyncState.step
    rw [hok, if_neg Bool.false_ne_true]
    dsimp only
    split
    · rename_i hnone
      exact Or.inl ⟨hnone, rfl, rfl, rfl⟩
    · rename_i range hrange
      exact Or.inr ⟨range, hrange, rfl, rfl, rfl⟩

/-- A range that was read. -/
theorem reads_of_mem {range : ScanRange} {finalized h : ℤ} (hlo : range.lo ≤ h)
    (hhi : h ≤ range.hi) : BlockReading.Reads ⟨range, finalized⟩ h := by
  obtain ⟨c, hc, -⟩ := existsUnique_chunk (show 0 < traceChunk by decide) hlo hhi
  obtain ⟨d, hd, -⟩ := existsUnique_chunk (show 0 < logChunk by decide) hlo hhi
  exact ⟨⟨c, hc⟩, ⟨d, hd⟩⟩

theorem ScanInv.step (ids : KeySupply Id) {st : SyncState Id} (hinv : ScanInv st) (r : SyncRound) :
    ScanInv (st.step ids r) := by
  cases hok : r.fails with
  | true =>
    unfold SyncState.step
    rwa [hok, if_pos rfl]
  | false =>
    obtain ⟨start, hstart, hstart', hcase⟩ := step_heights ids st hok
    -- an account that was read before has its start
    have hstarted : ∀ s, st.account.syncHeight = some s → st.account.startHeight = some start := by
      intro s hs
      cases hb : st.account.startHeight with
      | none => rw [hinv.unstarted hb] at hs; cases hs
      | some b => rw [hstart b hb]
    rcases hcase with ⟨-, hsync, hread, htable⟩ | ⟨range, hrange, hsync, hread, htable⟩
    · -- no block to read: the open rows are those of before
      have hrows : ∀ row ∈ (st.step ids r).account.table.rows, row.status = .pending →
          row ∈ st.account.table.rows := by
        intro row hrow hp
        rw [htable] at hrow
        exact (TransferTable.unobserved_pending hrow rfl hp).1
      refine ⟨?_, ?_, ?_, ?_, ?_⟩
      · intro h
        rw [hstart'] at h
        cases h
      · intro h row hrow hp
        rw [hsync] at h
        exact hinv.unread h row (hrows row hrow hp) hp
      · intro b hb s hs
        rw [hstart', Option.some.injEq] at hb
        rw [hsync] at hs
        exact hb ▸ hinv.level start (hstarted s hs) s hs
      · intro b hb s hs
        rw [hstart', Option.some.injEq] at hb
        rw [hsync] at hs
        rw [hread]
        exact hb ▸ hinv.covered start (hstarted s hs) s hs
      · intro s hs row hrow hp
        rw [hsync] at hs
        exact hinv.pending s hs row (hrows row hrow hp) hp
    · obtain ⟨hlo, -, -, hnext⟩ := ethScanRange_eq_some hrange
      generalize hlevel : st.account.syncHeight.getD (start - 1) = level at hlo hnext
      -- the scan goes on right above what was read
      have hstartlevel : start - 1 ≤ level := by
        cases hs : st.account.syncHeight with
        | none => rw [hs] at hlevel; exact hlevel.le
        | some s =>
          rw [hs] at hlevel
          exact hlevel ▸ hinv.level start (hstarted s hs) s hs
      have hlo : range.lo = level + 1 := by rw [hlo]; omega
      have habove : ∀ s, st.account.syncHeight = some s → level = s := by
        intro s hs
        rw [hs] at hlevel
        exact hlevel.symm
      refine ⟨?_, ?_, ?_, ?_, ?_⟩
      · intro h
        rw [hstart'] at h
        cases h
      · intro h
        rw [hsync] at h
        cases h
      · intro b hb s hs
        rw [hstart', Option.some.injEq] at hb
        rw [hsync, Option.some.injEq] at hs
        omega
      · intro b hb s hs h hbh hhs
        rw [hstart', Option.some.injEq] at hb
        rw [hsync, Option.some.injEq] at hs
        rw [hread]
        by_cases hold : h ≤ level
        · cases hs' : st.account.syncHeight with
          | none =>
            rw [hs', Option.getD_none] at hlevel
            omega
          | some s' =>
            have hl := habove s' hs'
            obtain ⟨reading, hmem, hreads⟩ :=
              hinv.covered start (hstarted s' hs') s' hs' h (by omega) (by omega)
            exact ⟨reading, List.mem_append_left _ hmem, hreads⟩
        · exact ⟨⟨range, r.node.finalized⟩, by simp, reads_of_mem (by omega) (by omega),
            by simp only; omega⟩
      · intro s hs row hrow hp h hh
        rw [hsync, Option.some.injEq] at hs
        rw [htable] at hrow
        cases ho : observationOf (ethObservations (syncInput st.account.network st.account.ours
            (r.node.answers range) r.node.finalized r.node.latest)) row.key with
        | some o =>
          have hstatus := (TransferTable.observed_row hrow ho).1
          rw [hp] at hstatus
          have hpending : o.status = .pending := by
            cases hos : o.status with
            | pending => rfl
            | confirmed => rw [hos] at hstatus; cases hstatus
          obtain ⟨h', hheight, hloh, hfin⟩ := pending_above (observationOf_mem ho) hpending
          rw [← TransferTable.observed_height hrow ho, hh, Option.some.injEq] at hheight
          omega
        | none =>
          -- an open row that was not seen again lies beyond the range
          obtain ⟨hmem, hgone⟩ := TransferTable.unobserved_pending hrow ho hp
          cases hs' : st.account.syncHeight with
          | none => exact absurd hp (hinv.unread hs' row hmem)
          | some s' =>
            have hsh := hinv.pending s' hs' row hmem hp h hh
            have hl := habove s' hs'
            have hout : ¬ (range.lo ≤ h ∧ h ≤ range.hi) := by
              rintro ⟨h1, h2⟩
              have hst : row.existing.status = .pending := hp
              have hbh : row.existing.blockHeight = some h := hh
              unfold isGone at hgone
              simp [hst, hbh, h1, h2] at hgone
            omega

theorem ScanInv.run (ids : KeySupply Id) {st : SyncState Id} (hinv : ScanInv st)
    (rounds : List SyncRound) : ScanInv (st.run ids rounds) := by
  induction rounds generalizing st with
  | nil => exact hinv
  | cons r rounds ih => exact ih (hinv.step ids r)

/-! ## No gaps -/

/-- Whatever the node reports over the rounds: every block from the start up to the height
that counts as read was read when it was final, and no open movement lies at or below that
height. A further round keeps the start, never lowers the height, and raises it when it does
not fail and the node reports both its heights above it. -/
theorem scan_has_no_gaps (ids : KeySupply Id) (network : WalletNetwork) (ours : List Text)
    (historyFrom : ℤ) (rounds : List SyncRound) :
    let st : SyncState Id := (SyncState.fresh network ours historyFrom).run ids rounds
    (∀ b, st.account.startHeight = some b → ∀ s, st.account.syncHeight = some s →
      ∀ h, b ≤ h → h ≤ s → ∃ reading ∈ st.readings, reading.Reads h ∧ h ≤ reading.finalized) ∧
    (∀ s, st.account.syncHeight = some s → ∀ r ∈ st.account.table.rows,
      r.status = .pending → ∀ h, r.blockHeight = some h → s < h) ∧
    ∀ r : SyncRound,
      (∀ b, st.account.startHeight = some b → (st.step ids r).account.startHeight = some b) ∧
      (∀ s, st.account.syncHeight = some s →
        ∃ s', (st.step ids r).account.syncHeight = some s' ∧ s ≤ s') ∧
      (r.fails = false → ∀ b, (st.step ids r).account.startHeight = some b →
        st.account.syncHeight.getD (b - 1) < r.node.finalized →
        st.account.syncHeight.getD (b - 1) < r.node.latest →
        ∃ s', (st.step ids r).account.syncHeight = some s' ∧
          st.account.syncHeight.getD (b - 1) < s') := by
  intro st
  have hinv : ScanInv st := (ScanInv.fresh network ours historyFrom).run ids rounds
  refine ⟨hinv.covered, hinv.pending, fun r => ?_⟩
  cases hok : r.fails with
  | true =>
    have hstep : st.step ids r = st := by
      unfold SyncState.step
      rw [hok, if_pos rfl]
    rw [hstep]
    exact ⟨fun b hb => hb, fun s hs => ⟨s, hs, le_rfl⟩, fun h => by cases h⟩
  | false =>
    obtain ⟨start, hstart, hstart', hcase⟩ := step_heights ids st hok
    refine ⟨fun b hb => by rw [hstart', hstart b hb], ?_, ?_⟩
    · intro s hs
      rcases hcase with ⟨-, hsync, -⟩ | ⟨range, hrange, hsync, -⟩
      · exact ⟨s, by rw [hsync, hs], le_rfl⟩
      · obtain ⟨-, -, -, hnext⟩ := ethScanRange_eq_some hrange
        rw [hs, Option.getD_some] at hnext
        exact ⟨_, hsync, by omega⟩
    · intro _ b hb hfin hlatest
      rw [hstart', Option.some.injEq] at hb
      subst hb
      have hlevel : start - 1 ≤ st.account.syncHeight.getD (start - 1) := by
        cases hs : st.account.syncHeight with
        | none => exact le_rfl
        | some s =>
          rw [Option.getD_some]
          cases hb : st.account.startHeight with
          | none => rw [hinv.unstarted hb] at hs; cases hs
          | some b => exact hstart b hb ▸ hinv.level b hb s hs
      rcases hcase with ⟨hnone, -⟩ | ⟨range, hrange, hsync, -⟩
      · unfold ethScanRange at hnone
        dsimp only at hnone
        rw [if_neg (by omega)] at hnone
        cases hnone
      · obtain ⟨hlo, -, hhi, hnext⟩ := ethScanRange_eq_some hrange
        have hmax : maxEthBlocks = 2000 := rfl
        exact ⟨_, hsync, by omega⟩

/-- Keys that count up. -/
def counting : KeySupply ℕ where
  fresh ids := ids.sum + 1
  fresh_not_mem ids h := by
    have := List.le_sum_of_mem h
    omega

/-- A node at which nothing happens. -/
def quietNode (latest finalized : ℤ) : EthNode where
  latest := latest
  finalized := finalized
  timestamp _ := none
  traceTo _ := []
  traceFrom _ := []
  logsTo _ := []
  logsFrom _ := []
  receipt _ := none
  traceTransaction _ := []
  blockTimes _ := none
  traces_in _ _ h := absurd h List.not_mem_nil
  logs_in _ _ h := absurd h List.not_mem_nil
  receipts_in _ _ h := absurd h List.not_mem_nil

def quietRound (latest finalized : ℤ) : SyncRound :=
  ⟨quietNode latest finalized, ⟨fun _ => none, fun _ => none, fun _ => none, 0⟩, false⟩

/-- A final height above the height that counts as read is not enough: a round whose latest
block is not above it reads nothing. -/
theorem final_height_alone_reads_nothing :
    ¬ ∀ (rounds : List SyncRound) (r : SyncRound), r.fails = false → ∀ s,
      ((SyncState.fresh .ethereumSepolia [] 0).run counting rounds).account.syncHeight = some s →
      s < r.node.finalized →
      ∃ s', (((SyncState.fresh .ethereumSepolia [] 0).run counting rounds).step counting
        r).account.syncHeight = some s' ∧ s < s' := by
  intro h
  let first : SyncState ℕ := (SyncState.fresh .ethereumSepolia [] 0).run counting [quietRound 0 0]
  have hfound : findBlockByTime (fun _ => none) 0 0 0 = 0 := by
    rw [findBlockByTime, if_neg (by decide)]
  have hrange : ethScanRange none 0 0 0 maxEthBlocks = some ⟨0, 0, 0⟩ := by decide
  have hfirst : first.account.startHeight = some 0 ∧ first.account.syncHeight = some 0 := by
    unfold first SyncState.run SyncState.fresh
    rw [List.foldl_cons, List.foldl_nil]
    unfold SyncState.step quietRound quietNode
    simp [hfound, hrange]
  have hnone : ethScanRange (some 0) 0 5 0 maxEthBlocks = none := by decide
  have hsecond : (first.step counting (quietRound 0 5)).account.syncHeight = some 0 := by
    obtain ⟨start, hstart, -, hcase⟩ := step_heights counting first
      (show (quietRound 0 5).fails = false from rfl)
    have hstart := hstart 0 hfirst.1
    subst hstart
    rw [hfirst.2] at hcase
    rcases hcase with ⟨-, hsync, -⟩ | ⟨range, hrange', -⟩
    · exact hsync
    · have hnone' : ethScanRange (some 0) 0 (quietRound 0 5).node.finalized
          (quietRound 0 5).node.latest maxEthBlocks = none := hnone
      rw [hnone'] at hrange'
      cases hrange'
  obtain ⟨s', hs', hlt⟩ := h [quietRound 0 0] (quietRound 0 5) rfl 0 hfirst.2 (by decide)
  have : some s' = some 0 := hs'.symm.trans hsecond
  rw [Option.some.injEq] at this
  omega

end Klick
