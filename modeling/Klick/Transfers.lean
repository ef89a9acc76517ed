-- The movements of an account (`lib/wallet/sync/plan.ts`, `types.ts`) and how
-- `wallet-sync.ts` stores what a node reports: a plan is made against the
-- stored rows, then written into the table.
import Klick.Distinct
import Klick.Fields
import Klick.Networks

open Js

namespace Klick

/-! ## What a node reports -/

inductive Direction
  | incoming | outgoing
deriving DecidableEq, Repr

/-- `TRANSFER_STATUS` -/
inductive TransferStatus
  | pending | confirmed | dropped
deriving DecidableEq, Repr

/-- The status of an observation: a node reports nothing as dropped. -/
inductive ObservedStatus
  | pending | confirmed
deriving DecidableEq, Repr

def ObservedStatus.stored : ObservedStatus → TransferStatus
  | pending => .pending
  | confirmed => .confirmed

theorem ObservedStatus.stored_ne_dropped (s : ObservedStatus) : s.stored ≠ .dropped := by
  cases s <;> simp [stored]

/-- The place of a movement in its transaction. The program writes it itself, from fixed
words and numbers, so that it never holds the separator of the key. -/
structure OutputRef where
  text : Text
  plain : bar ∉ text
deriving DecidableEq

structure TransferObservation where
  direction : Direction
  asset : AssetCode
  amount : ℤ
  txid : Text
  outputRef : OutputRef
  address : Text
  counterparty : Option Text
  blockHeight : Option ℤ
  blockHash : Option Text
  blockTime : Option ℤ
  confirmations : ℤ
  status : ObservedStatus
deriving DecidableEq

/-- `transferKey` -/
def transferKey (txid : Text) (outputRef : OutputRef) (asset : AssetCode) : Text :=
  txid ++ bar :: (outputRef.text ++ bar :: asset.text)

def TransferObservation.key (o : TransferObservation) : Text :=
  transferKey o.txid o.outputRef o.asset

theorem AssetCode.bar_not_mem (a : AssetCode) : bar ∉ a.text := by
  cases a <;> decide

/-- The key tells the transaction, the place and the asset. -/
theorem transferKey_inj {t t' : Text} {r r' : OutputRef} {a a' : AssetCode}
    (h : transferKey t r a = transferKey t' r' a') : t = t' ∧ r = r' ∧ a = a' := by
  -- from the right, the first two separators are those of the key
  have hr := congrArg List.reverse h
  simp only [transferKey, List.reverse_append, List.reverse_cons, List.append_assoc,
    List.cons_append, List.nil_append] at hr
  obtain ⟨hasset, hrest⟩ := append_cons_cancel (by simpa using a.bar_not_mem)
    (by simpa using a'.bar_not_mem) hr
  obtain ⟨hplace, htxid⟩ := append_cons_cancel (by simpa using r.plain)
    (by simpa using r'.plain) hrest
  refine ⟨List.reverse_injective htxid, ?_, AssetCode.text_injective (List.reverse_injective hasset)⟩
  cases r
  cases r'
  simpa using hplace

/-! ## The plan -/

structure ExistingTransfer (Id : Type) where
  id : Id
  txid : Text
  outputRef : OutputRef
  asset : AssetCode
  status : TransferStatus
  confirmations : ℤ
  blockHeight : Option ℤ
  blockHash : Option Text
deriving DecidableEq

structure TransferUpdate (Id : Type) where
  id : Id
  status : ObservedStatus
  confirmations : ℤ
  blockHeight : Option ℤ
  blockHash : Option Text
  blockTime : Option ℤ
  becameConfirmed : Bool
  revived : Bool
deriving DecidableEq

structure TransferPlan (Id : Type) where
  inserts : List TransferObservation
  updates : List (TransferUpdate Id)
  drops : List (Id × Text)
deriving DecidableEq

/-- A plan that changes nothing. -/
def TransferPlan.empty {Id : Type} : TransferPlan Id := ⟨[], [], []⟩

/-- The options of `planTransfers`: for Bitcoin the transactions that are gone, for
Ethereum the range of blocks that was read again. -/
structure PlanOpts where
  goneTxids : List Text
  rescanned : Option (ℤ × ℤ)

variable {Id : Type}

def ExistingTransfer.key (e : ExistingTransfer Id) : Text :=
  transferKey e.txid e.outputRef e.asset

/-- `byKey.get(key)`: of two rows with one key the later one is in the map. -/
def byKey (existing : List (ExistingTransfer Id)) (key : Text) : Option (ExistingTransfer Id) :=
  existing.reverse.find? fun e => e.key = key

def changed (e : ExistingTransfer Id) (o : TransferObservation) : Bool :=
  e.status ≠ o.status.stored || e.confirmations ≠ o.confirmations ||
    e.blockHash ≠ o.blockHash || e.blockHeight ≠ o.blockHeight

def updateOf (e : ExistingTransfer Id) (o : TransferObservation) : TransferUpdate Id where
  id := e.id
  status := o.status
  confirmations := o.confirmations
  blockHeight := o.blockHeight
  blockHash := o.blockHash
  blockTime := o.blockTime
  becameConfirmed := e.status ≠ .confirmed && o.status = .confirmed
  revived := e.status = .dropped

/-- The loop over the observations, `seen` being the keys met so far. -/
def planObserved (existing : List (ExistingTransfer Id)) :
    List Text → List TransferObservation → List TransferObservation × List (TransferUpdate Id)
  | _, [] => ([], [])
  | seen, o :: os =>
    if o.key ∈ seen then planObserved existing seen os
    else
      let rest := planObserved existing (o.key :: seen) os
      match byKey existing o.key with
      | none => (o :: rest.1, rest.2)
      | some e => if changed e o then (rest.1, updateOf e o :: rest.2) else rest

/-- Whether a row that was not observed is to be dropped. -/
def isGone (opts : PlanOpts) (e : ExistingTransfer Id) : Bool :=
  let gone := opts.goneTxids.contains e.txid
  let reorged := match opts.rescanned with
    | none => false
    | some (lo, hi) => e.status = .pending &&
        match e.blockHeight with
        | none => true
        | some h => lo ≤ h && h ≤ hi
  gone || reorged

/-- `planTransfers` -/
def planTransfers (existing : List (ExistingTransfer Id)) (observed : List TransferObservation)
    (opts : PlanOpts) : TransferPlan Id :=
  let plan := planObserved existing [] observed
  { inserts := plan.1
    updates := plan.2
    drops := (existing.filter fun e =>
      e.status ≠ .dropped && !(observed.map (·.key)).contains e.key && isGone opts e).map
        fun e => (e.id, e.txid) }

/-! ## The table -/

/-- `SCREENING_RESULTS` -/
inductive ScreeningResult
  | clear | hit | unchecked
deriving DecidableEq, Repr

structure ScreeningOutcome where
  result : ScreeningResult
  ref : Option Text

/-- The columns of `wallet_transfers` that the program writes. -/
structure TransferValues where
  addressId : Option Text
  direction : Direction
  asset : AssetCode
  amount : ℤ
  txid : Text
  outputRef : OutputRef
  address : Text
  counterparty : Option Text
  blockHeight : Option ℤ
  blockHash : Option Text
  blockTime : Option ℤ
  confirmations : ℤ
  status : TransferStatus
  screening : ScreeningResult
  screeningRef : Option Text
  frozen : Bool
  payoutId : Option Text
  confirmedAt : Option ℤ
deriving DecidableEq

structure StoredTransfer (Id : Type) extends TransferValues where
  id : Id
deriving DecidableEq

def TransferValues.key (v : TransferValues) : Text := transferKey v.txid v.outputRef v.asset

/-- The columns that the plan reads. -/
def StoredTransfer.existing (r : StoredTransfer Id) : ExistingTransfer Id where
  id := r.id
  txid := r.txid
  outputRef := r.outputRef
  asset := r.asset
  status := r.status
  confirmations := r.confirmations
  blockHeight := r.blockHeight
  blockHash := r.blockHash

@[simp] theorem StoredTransfer.existing_key (r : StoredTransfer Id) : r.existing.key = r.key := rfl

theorem StoredTransfer.existing_status (r : StoredTransfer Id) :
    r.existing.status = r.status := rfl

@[simp] theorem StoredTransfer.existing_id (r : StoredTransfer Id) : r.existing.id = r.id := rfl

/-- The rows of one account, with the primary key and the unique index over transaction,
place and asset. -/
structure TransferTable (Id : Type) where
  rows : List (StoredTransfer Id)
  primary : (rows.map (·.id)).Nodup
  unique : (rows.map fun r => (r.txid, r.outputRef, r.asset)).Nodup

/-- Fresh primary keys, as the database makes them. -/
structure KeySupply (Id : Type) where
  fresh : List Id → Id
  fresh_not_mem : ∀ ids, fresh ids ∉ ids

/-- What the run knows besides the plan: the ids of the addresses, the screening of new
incoming movements and the payout of a transaction. -/
structure StoreContext where
  addressId : Text → Option Text
  screening : Text → Option ScreeningOutcome
  payoutByTxid : Text → Option Text
  now : ℤ

namespace TransferTable

/-- The row of a new observation. -/
def newValues (c : StoreContext) (o : TransferObservation) : TransferValues where
  addressId := if o.address = [] then none else c.addressId o.address
  direction := o.direction
  asset := o.asset
  amount := o.amount
  txid := o.txid
  outputRef := o.outputRef
  address := o.address
  counterparty := o.counterparty
  blockHeight := o.blockHeight
  blockHash := o.blockHash
  blockTime := o.blockTime
  confirmations := o.confirmations
  status := o.status.stored
  screening := if o.direction = .incoming
    then ((c.screening o.key).map (·.result)).getD .unchecked else .clear
  screeningRef := (c.screening o.key).bind (·.ref)
  frozen := (c.screening o.key).map (·.result) = some .hit
  payoutId := c.payoutByTxid o.txid
  confirmedAt := if o.status = .confirmed then some c.now else none

/-- `insert … onConflictDoNothing` -/
def insert (ids : KeySupply Id) (t : TransferTable Id) (v : TransferValues) : TransferTable Id :=
  if h : (v.txid, v.outputRef, v.asset) ∈ t.rows.map fun r => (r.txid, r.outputRef, r.asset) then t
  else
    { rows := t.rows ++ [{ v with id := ids.fresh (t.rows.map (·.id)) }]
      primary := by
        rw [List.map_append]
        exact List.Nodup.append t.primary (List.nodup_singleton _)
          (by simpa using ids.fresh_not_mem (t.rows.map (·.id)))
      unique := by
        rw [List.map_append]
        exact List.Nodup.append t.unique (List.nodup_singleton _) (by simpa using h) }

/-- `update … where id = …`, for a change that leaves the key columns alone. -/
def modify [DecidableEq Id] (t : TransferTable Id) (id : Id)
    (f : StoredTransfer Id → StoredTransfer Id)
    (hid : ∀ r, (f r).id = r.id)
    (hkey : ∀ r, ((f r).txid, (f r).outputRef, (f r).asset) = (r.txid, r.outputRef, r.asset)) :
    TransferTable Id where
  rows := t.rows.map fun r => if r.id = id then f r else r
  primary := by
    have h : ((fun r : StoredTransfer Id => r.id) ∘ fun r => if r.id = id then f r else r) =
        fun r => r.id := by
      funext r
      by_cases hr : r.id = id <;> simp [hr, hid]
    rw [List.map_map, h]
    exact t.primary
  unique := by
    have h : ((fun r : StoredTransfer Id => (r.txid, r.outputRef, r.asset)) ∘
        fun r => if r.id = id then f r else r) = fun r => (r.txid, r.outputRef, r.asset) := by
      funext r
      by_cases hr : r.id = id
      · simpa [hr] using hkey r
      · simp [hr]
    rw [List.map_map, h]
    exact t.unique

end TransferTable

/-- The row after an update of the plan. -/
def StoredTransfer.update (now : ℤ) (u : TransferUpdate Id) (r : StoredTransfer Id) :
    StoredTransfer Id :=
  { r with
    status := u.status.stored
    confirmations := u.confirmations
    blockHeight := u.blockHeight
    blockHash := u.blockHash
    blockTime := u.blockTime
    confirmedAt := if u.becameConfirmed then some now else r.confirmedAt }

def StoredTransfer.drop (r : StoredTransfer Id) : StoredTransfer Id := { r with status := .dropped }

namespace TransferTable

variable [DecidableEq Id]

def updateRow (now : ℤ) (t : TransferTable Id) (u : TransferUpdate Id) : TransferTable Id :=
  t.modify u.id (·.update now u) (fun _ => rfl) fun _ => rfl

def dropRow (t : TransferTable Id) (d : Id × Text) : TransferTable Id :=
  t.modify d.1 (·.drop) (fun _ => rfl) fun _ => rfl

/-- The rows that `apply` reads: what is open, and what belongs to a transaction that was
observed or is gone. -/
def loaded (t : TransferTable Id) (observed : List TransferObservation) (opts : PlanOpts) :
    List (ExistingTransfer Id) :=
  (t.rows.filter fun r =>
    r.status = .pending || (observed.map (·.txid) ++ opts.goneTxids).contains r.txid).map
      (·.existing)

/-- Inserts first, then updates, then drops. -/
def store (ids : KeySupply Id) (c : StoreContext) (t : TransferTable Id) (p : TransferPlan Id) :
    TransferTable Id :=
  let inserted := p.inserts.foldl (fun t o => t.insert ids (newValues c o)) t
  let updated := p.updates.foldl (updateRow c.now) inserted
  p.drops.foldl dropRow updated

/-- The part of `apply` that reconciles the rows with what the node reports. -/
def reconcile (ids : KeySupply Id) (c : StoreContext) (t : TransferTable Id)
    (observed : List TransferObservation) (opts : PlanOpts) : TransferTable Id :=
  t.store ids c (planTransfers (t.loaded observed opts) observed opts)

end TransferTable

/-! ## What a plan says -/

/-- The observations that count: the first one for each key. -/
def firsts (observed : List TransferObservation) : List TransferObservation :=
  firstsBy TransferObservation.key [] observed

/-- The observation of a key. -/
def observationOf (observed : List TransferObservation) (key : Text) :
    Option TransferObservation :=
  observed.find? fun o => o.key = key

theorem mem_firsts {os : List TransferObservation} {o : TransferObservation} :
    o ∈ firsts os ↔ observationOf os o.key = some o := by
  rw [firsts, mem_firstsBy]
  exact and_iff_right List.not_mem_nil

theorem firsts_nodup (os : List TransferObservation) : ((firsts os).map (·.key)).Nodup :=
  firstsBy_nodup TransferObservation.key [] os

/-- The update that an observation of a stored row asks for. -/
def updateFor (existing : List (ExistingTransfer Id)) (o : TransferObservation) :
    Option (TransferUpdate Id) :=
  (byKey existing o.key).bind fun e => if changed e o then some (updateOf e o) else none

theorem planObserved_from (existing : List (ExistingTransfer Id)) (seen : List Text)
    (os : List TransferObservation) :
    planObserved existing seen os =
      ((firstsBy TransferObservation.key seen os).filter fun o => (byKey existing o.key).isNone,
        (firstsBy TransferObservation.key seen os).filterMap (updateFor existing)) := by
  induction os generalizing seen with
  | nil => simp [planObserved, firstsBy]
  | cons o os ih =>
    unfold planObserved firstsBy
    by_cases hs : o.key ∈ seen
    · simp [hs, ih]
    · simp only [hs, if_false, ih]
      cases he : byKey existing o.key with
      | none => simp [he, updateFor]
      | some e => by_cases hc : changed e o <;> simp [he, updateFor, hc]

theorem planObserved_eq (existing : List (ExistingTransfer Id)) (os : List TransferObservation) :
    planObserved existing [] os =
      ((firsts os).filter fun o => (byKey existing o.key).isNone,
        (firsts os).filterMap (updateFor existing)) :=
  planObserved_from existing [] os

theorem observationOf_key {os : List TransferObservation} {key : Text} {o : TransferObservation}
    (h : observationOf os key = some o) : o.key = key := by
  simpa using List.find?_some h

theorem observationOf_mem {os : List TransferObservation} {key : Text} {o : TransferObservation}
    (h : observationOf os key = some o) : o ∈ os := List.mem_of_find?_eq_some h

theorem observationOf_eq_none {os : List TransferObservation} {key : Text} :
    observationOf os key = none ↔ key ∉ os.map (·.key) := by
  simp [observationOf]

theorem exists_observationOf {os : List TransferObservation} {o : TransferObservation}
    (h : o ∈ os) : ∃ p, observationOf os o.key = some p := by
  cases hp : observationOf os o.key with
  | some p => exact ⟨p, rfl⟩
  | none => exact absurd (List.mem_map_of_mem h) (observationOf_eq_none.1 hp)

namespace TransferTable

theorem keys_nodup (t : TransferTable Id) : (t.rows.map fun r => r.key).Nodup := by
  have h : (fun r : StoredTransfer Id => r.key) =
      (fun k : Text × OutputRef × AssetCode => transferKey k.1 k.2.1 k.2.2) ∘
        fun r => (r.txid, r.outputRef, r.asset) := rfl
  rw [h, ← List.map_map]
  refine t.unique.map fun a b hab => ?_
  obtain ⟨h1, h2, h3⟩ := transferKey_inj hab
  exact Prod.ext h1 (Prod.ext h2 h3)

/-- Two rows with one key are one row. -/
theorem eq_of_key {t : TransferTable Id} {r s : StoredTransfer Id} (hr : r ∈ t.rows)
    (hs : s ∈ t.rows) (h : r.key = s.key) : r = s :=
  List.inj_on_of_nodup_map t.keys_nodup hr hs h

theorem eq_of_id {t : TransferTable Id} {r s : StoredTransfer Id} (hr : r ∈ t.rows)
    (hs : s ∈ t.rows) (h : r.id = s.id) : r = s :=
  List.inj_on_of_nodup_map t.primary hr hs h

/-- What the map of the plan finds for a key is the row of that key. -/
theorem byKey_eq_some {t : TransferTable Id} {rows : List (StoredTransfer Id)}
    (hsub : ∀ r ∈ rows, r ∈ t.rows) {key : Text} {e : ExistingTransfer Id} :
    byKey (rows.map (·.existing)) key = some e ↔ ∃ r ∈ rows, r.key = key ∧ r.existing = e := by
  unfold byKey
  constructor
  · intro h
    have hkey := of_decide_eq_true (List.find?_some h :)
    have hmem := List.mem_of_find?_eq_some h
    simp only [List.mem_reverse, List.mem_map] at hmem
    obtain ⟨r, hr, rfl⟩ := hmem
    exact ⟨r, hr, hkey, rfl⟩
  · rintro ⟨r, hr, rfl, rfl⟩
    cases hf : (rows.map (·.existing)).reverse.find? fun e => e.key = r.key with
    | none =>
      rw [List.find?_eq_none] at hf
      exact absurd (hf r.existing (by simpa using ⟨r, hr, rfl⟩)) (by simp)
    | some e =>
      have hkey := of_decide_eq_true (List.find?_some hf :)
      have hmem := List.mem_of_find?_eq_some hf
      simp only [List.mem_reverse, List.mem_map] at hmem
      obtain ⟨s, hs, rfl⟩ := hmem
      rw [StoredTransfer.existing_key] at hkey
      rw [eq_of_key (hsub s hs) (hsub r hr) hkey]

theorem byKey_eq_none {rows : List (StoredTransfer Id)} {key : Text} :
    byKey (rows.map (·.existing)) key = none ↔ ∀ r ∈ rows, r.key ≠ key := by
  simp [byKey]

end TransferTable

/-! ## What storing a plan does -/

namespace TransferTable

/-- All rows, as the plan reads them. -/
def existing (t : TransferTable Id) : List (ExistingTransfer Id) := t.rows.map (·.existing)

theorem byKey_existing {t : TransferTable Id} {key : Text} {e : ExistingTransfer Id} :
    byKey t.existing key = some e ↔ ∃ r ∈ t.rows, r.key = key ∧ r.existing = e :=
  byKey_eq_some fun _ hr => hr

theorem byKey_row {t : TransferTable Id} {r : StoredTransfer Id} (hr : r ∈ t.rows) :
    byKey t.existing r.key = some r.existing := byKey_existing.2 ⟨r, hr, rfl, rfl⟩

theorem txid_of_key {r : StoredTransfer Id} {o : TransferObservation} (h : r.key = o.key) :
    r.txid = o.txid := (transferKey_inj h).1

theorem byKey_loaded (t : TransferTable Id) {observed : List TransferObservation} (opts : PlanOpts)
    {o : TransferObservation} (ho : o ∈ observed) :
    byKey (t.loaded observed opts) o.key = byKey t.existing o.key := by
  apply Option.ext
  intro e
  rw [byKey_existing, loaded, byKey_eq_some fun r hr => List.mem_of_mem_filter hr]
  refine exists_congr fun r => ?_
  rw [List.mem_filter]
  constructor
  · rintro ⟨⟨hr, -⟩, h⟩
    exact ⟨hr, h⟩
  · rintro ⟨hr, hkey, he⟩
    have htx : r.txid ∈ observed.map (·.txid) := txid_of_key hkey ▸ List.mem_map_of_mem ho
    exact ⟨⟨hr, by simp [htx]⟩, hkey, he⟩

/-- The rows that are not read would not be in the plan. -/
theorem plan_loaded (t : TransferTable Id) (observed : List TransferObservation) (opts : PlanOpts) :
    planTransfers (t.loaded observed opts) observed opts =
      planTransfers t.existing observed opts := by
  have hfirst : ∀ o ∈ firsts observed,
      byKey (t.loaded observed opts) o.key = byKey t.existing o.key := fun o ho =>
    t.byKey_loaded opts (observationOf_mem (mem_firsts.1 ho))
  unfold planTransfers
  simp only [planObserved_eq, TransferPlan.mk.injEq]
  refine ⟨List.filter_congr fun o ho => by rw [hfirst o ho],
    List.filterMap_congr fun o ho => by unfold updateFor; rw [hfirst o ho], ?_⟩
  congr 1
  unfold loaded existing
  rw [List.filter_map, List.filter_map, List.filter_filter]
  congr 1
  apply List.filter_congr
  intro r _
  rw [Bool.and_eq_left_iff_imp]
  intro h
  simp only [Function.comp_apply, Bool.and_eq_true, isGone, Bool.or_eq_true] at h
  rcases h.2 with hgone | hreorg
  · rw [List.contains_iff_mem] at hgone
    have : r.txid ∈ opts.goneTxids := hgone
    simp [this]
  · cases hrange : opts.rescanned with
    | none => simp [hrange] at hreorg
    | some range =>
      simp only [hrange, Bool.and_eq_true, decide_eq_true_eq] at hreorg
      have : r.status = .pending := hreorg.1
      simp [this]

/-- Rows of new observations are appended, with fresh ids. -/
theorem insert_all (ids : KeySupply Id) (c : StoreContext) (os : List TransferObservation)
    (t : TransferTable Id) (hnew : ∀ o ∈ os, ∀ r ∈ t.rows, r.key ≠ o.key)
    (hnd : (os.map (·.key)).Nodup) :
    ∃ new : List (StoredTransfer Id),
      (os.foldl (fun t o => t.insert ids (newValues c o)) t).rows = t.rows ++ new ∧
      new.map (·.toTransferValues) = os.map (newValues c) ∧
      ∀ r ∈ new, ∀ s ∈ t.rows, s.id ≠ r.id := by
  induction os generalizing t with
  | nil => exact ⟨[], by simp, by simp, by simp⟩
  | cons o os ih =>
    rw [List.map_cons, List.nodup_cons] at hnd
    let v := newValues c o
    have hfree : (v.txid, v.outputRef, v.asset) ∉
        t.rows.map fun r => (r.txid, r.outputRef, r.asset) := by
      rw [List.mem_map]
      rintro ⟨r, hr, heq⟩
      simp only [Prod.mk.injEq] at heq
      refine hnew o (by simp) r hr ?_
      rw [TransferValues.key, heq.1, heq.2.1, heq.2.2]
      rfl
    let row : StoredTransfer Id := ⟨v, ids.fresh (t.rows.map (·.id))⟩
    have hrows : (t.insert ids (newValues c o)).rows = t.rows ++ [row] := by
      unfold insert
      rw [dif_neg hfree]
    have hkey : row.key = o.key := rfl
    have hid : row.id = ids.fresh (t.rows.map (·.id)) := rfl
    obtain ⟨new, h1, h2, h3⟩ := ih (t.insert ids (newValues c o)) (by
      intro p hp r hr hrp
      rw [hrows, List.mem_append, List.mem_singleton] at hr
      rcases hr with hr | rfl
      · exact hnew p (by simp [hp]) r hr hrp
      · exact hnd.1 (List.mem_map.mpr ⟨p, hp, by rw [← hrp, hkey]⟩)) hnd.2
    refine ⟨row :: new, ?_, ?_, ?_⟩
    · rw [List.foldl_cons, h1, hrows, List.append_assoc]
      rfl
    · rw [List.map_cons, List.map_cons, h2]
    · intro r hr s hs hsr
      rcases List.mem_cons.mp hr with rfl | hr
      · refine ids.fresh_not_mem (t.rows.map (·.id)) ?_
        rw [← hid, ← hsr]
        exact List.mem_map_of_mem hs
      · exact h3 r hr s (by rw [hrows]; simp [hs]) hsr

variable [DecidableEq Id]

theorem update_all (now : ℤ) (us : List (TransferUpdate Id)) (t : TransferTable Id)
    (hnd : (us.map (·.id)).Nodup) :
    (us.foldl (updateRow now) t).rows = t.rows.map fun r =>
      match us.find? fun u => u.id = r.id with
      | some u => r.update now u
      | none => r := by
  induction us generalizing t with
  | nil => simp
  | cons u us ih =>
    rw [List.map_cons, List.nodup_cons] at hnd
    rw [List.foldl_cons, ih _ hnd.2]
    unfold updateRow modify
    rw [List.map_map]
    apply List.map_congr_left
    intro r _
    by_cases hr : r.id = u.id
    · have hnone : us.find? (fun v => v.id = (r.update now u).id) = none := by
        rw [List.find?_eq_none]
        intro v hv hid
        exact hnd.1 (List.mem_map.mpr ⟨v, hv, by rw [of_decide_eq_true hid, ← hr]; rfl⟩)
      simp [hr, hnone]
    · simp [hr, Ne.symm hr]

theorem drop_all (ds : List (Id × Text)) (t : TransferTable Id) :
    (ds.foldl dropRow t).rows = t.rows.map fun r => if r.id ∈ ds.map Prod.fst then r.drop else r := by
  induction ds generalizing t with
  | nil => simp
  | cons d ds ih =>
    rw [List.foldl_cons, ih]
    unfold dropRow modify
    rw [List.map_map]
    apply List.map_congr_left
    intro r _
    have hdrop : r.drop.id = r.id := rfl
    have htwice : r.drop.drop = r.drop := rfl
    rw [Function.comp_apply, List.map_cons]
    by_cases hr : r.id = d.1
    · by_cases hd : r.id ∈ ds.map Prod.fst <;> simp [hr, hdrop, htwice]
    · rw [if_neg hr]
      by_cases hd : r.id ∈ ds.map Prod.fst
      · rw [if_pos hd, if_pos (List.mem_cons_of_mem _ hd)]
      · rw [if_neg hd, if_neg (List.not_mem_cons_of_ne_of_not_mem hr hd)]

end TransferTable

/-! ## The table after a run -/

namespace TransferTable

/-- What becomes of a stored row. -/
def fate (c : StoreContext) (observed : List TransferObservation) (opts : PlanOpts)
    (r : StoredTransfer Id) : StoredTransfer Id :=
  match observationOf observed r.key with
  | some o => if changed r.existing o then r.update c.now (updateOf r.existing o) else r
  | none => if r.status ≠ .dropped && isGone opts r.existing then r.drop else r

theorem fate_id (c : StoreContext) (observed : List TransferObservation) (opts : PlanOpts)
    (r : StoredTransfer Id) : (fate c observed opts r).id = r.id := by
  unfold fate
  split
  · split <;> rfl
  · split <;> rfl

theorem fate_key (c : StoreContext) (observed : List TransferObservation) (opts : PlanOpts)
    (r : StoredTransfer Id) : (fate c observed opts r).key = r.key := by
  unfold fate
  split
  · split <;> rfl
  · split <;> rfl

theorem mem_updates {t : TransferTable Id} {observed : List TransferObservation}
    {u : TransferUpdate Id} :
    u ∈ (firsts observed).filterMap (updateFor t.existing) ↔
      ∃ r ∈ t.rows, ∃ o, observationOf observed r.key = some o ∧ changed r.existing o = true ∧
        u = updateOf r.existing o := by
  rw [List.mem_filterMap]
  constructor
  · rintro ⟨o, ho, hu⟩
    obtain ⟨e, he, hu⟩ := Option.bind_eq_some_iff.mp hu
    obtain ⟨r, hr, hkey, rfl⟩ := byKey_existing.1 he
    by_cases hc : changed r.existing o = true
    · rw [if_pos hc] at hu
      exact ⟨r, hr, o, hkey ▸ (mem_firsts.1 ho), hc, (Option.some.inj hu).symm⟩
    · rw [if_neg hc] at hu
      cases hu
  · rintro ⟨r, hr, o, ho, hc, rfl⟩
    have hkey := observationOf_key ho
    refine ⟨o, mem_firsts.2 (by rw [hkey]; exact ho), ?_⟩
    rw [updateFor, hkey, byKey_row hr, Option.bind_some, if_pos hc]

theorem updates_nodup (t : TransferTable Id) (observed : List TransferObservation) :
    (((firsts observed).filterMap (updateFor t.existing)).map (·.id)).Nodup := by
  have hkeys : (firsts observed).Pairwise fun o p => o.key ≠ p.key :=
    List.pairwise_map.mp (firsts_nodup observed)
  refine List.pairwise_map.mpr (hkeys.filterMap _ ?_)
  -- two updates of one row would come from one key
  intro o p hne u hu v hv hid
  obtain ⟨e, he, hu⟩ := Option.bind_eq_some_iff.mp hu
  obtain ⟨f, hf, hv⟩ := Option.bind_eq_some_iff.mp hv
  obtain ⟨r, hr, hro, rfl⟩ := byKey_existing.1 he
  obtain ⟨s, hs, hsp, rfl⟩ := byKey_existing.1 hf
  have hur : u.id = r.id := by
    split at hu
    · rw [← Option.some.inj hu]
      rfl
    · cases hu
  have hvs : v.id = s.id := by
    split at hv
    · rw [← Option.some.inj hv]
      rfl
    · cases hv
  have hrs : r = s := eq_of_id hr hs (by rw [← hur, ← hvs, hid])
  exact hne (by rw [← hro, ← hsp, hrs])

theorem find_update {t : TransferTable Id} {r : StoredTransfer Id} (hr : r ∈ t.rows)
    [DecidableEq Id] (observed : List TransferObservation) :
    ((firsts observed).filterMap (updateFor t.existing)).find? (fun u => u.id = r.id) =
      (observationOf observed r.key).bind fun o =>
        if changed r.existing o then some (updateOf r.existing o) else none := by
  cases hf : ((firsts observed).filterMap (updateFor t.existing)).find? (fun u => u.id = r.id) with
  | some u =>
    have hid := of_decide_eq_true (List.find?_some hf :)
    obtain ⟨s, hs, o, ho, hc, rfl⟩ := mem_updates.1 (List.mem_of_find?_eq_some hf)
    have hsr : s = r := eq_of_id hs hr hid
    subst hsr
    simp [ho, hc]
  | none =>
    rw [List.find?_eq_none] at hf
    symm
    rw [Option.bind_eq_none_iff]
    intro o ho
    by_cases hc : changed r.existing o = true
    · exact absurd (hf _ (mem_updates.2 ⟨r, hr, o, ho, hc, rfl⟩)) (by simp [updateOf])
    · rw [if_neg hc]

theorem mem_drops {t : TransferTable Id} {p : ExistingTransfer Id → Bool} {id : Id} :
    id ∈ ((t.existing.filter p).map fun e => (e.id, e.txid)).map Prod.fst ↔
      ∃ r ∈ t.rows, p r.existing = true ∧ r.id = id := by
  simp [existing, and_assoc]

variable [DecidableEq Id]

/-- The table after a run: each row has met its fate, and every observed key that was not
there has a row of its own. -/
theorem reconcile_rows (ids : KeySupply Id) (c : StoreContext) (t : TransferTable Id)
    (observed : List TransferObservation) (opts : PlanOpts) :
    ∃ new : List (StoredTransfer Id),
      (t.reconcile ids c observed opts).rows = t.rows.map (fate c observed opts) ++ new ∧
      new.map (·.toTransferValues) =
        ((firsts observed).filter fun o => (byKey t.existing o.key).isNone).map (newValues c) := by
  unfold reconcile store
  rw [plan_loaded]
  simp only [planTransfers, planObserved_eq]
  have hnew : ∀ o ∈ (firsts observed).filter fun o => (byKey t.existing o.key).isNone,
      ∀ r ∈ t.rows, r.key ≠ o.key := by
    intro o ho
    rw [List.mem_filter, Option.isNone_iff_eq_none] at ho
    exact byKey_eq_none.1 ho.2
  have hnd : (((firsts observed).filter fun o => (byKey t.existing o.key).isNone).map
      (·.key)).Nodup := (firsts_nodup observed).sublist (List.filter_sublist.map _)
  obtain ⟨new, hrows, hvalues, hfresh⟩ := insert_all ids c _ t hnew hnd
  refine ⟨new, ?_, hvalues⟩
  rw [drop_all, update_all _ _ _ (t.updates_nodup observed), hrows, List.map_map, List.map_append]
  congr 1
  · -- the rows that were there
    apply List.map_congr_left
    intro r hr
    rw [Function.comp_apply, find_update hr observed]
    unfold fate
    cases ho : observationOf observed r.key with
    | some o =>
      have hseen : (observed.map (·.key)).contains r.key = true := by
        rw [List.contains_iff_mem, ← observationOf_key ho]
        exact List.mem_map_of_mem (observationOf_mem ho)
      have hkept : r.id ∉ ((t.existing.filter fun e => e.status ≠ .dropped &&
          !(observed.map (·.key)).contains e.key && isGone opts e).map
            fun e => (e.id, e.txid)).map Prod.fst := by
        rw [mem_drops]
        rintro ⟨s, hs, hp, hid⟩
        rw [eq_of_id hs hr hid, StoredTransfer.existing_key, hseen] at hp
        simp at hp
      by_cases hc : changed r.existing o = true
      · simp only [Option.bind_some, if_pos hc]
        exact if_neg hkept
      · simp only [Option.bind_some, if_neg hc]
        exact if_neg hkept
    | none =>
      have hseen : (observed.map (·.key)).contains r.key = false := by
        rw [← Bool.not_eq_true, List.contains_iff_mem]
        exact observationOf_eq_none.1 ho
      simp only [Option.bind_none]
      apply if_congr _ rfl rfl
      rw [mem_drops]
      constructor
      · rintro ⟨s, hs, hp, hid⟩
        rw [eq_of_id hs hr hid, StoredTransfer.existing_key, hseen] at hp
        simp only [Bool.not_false, Bool.and_true] at hp
        exact hp
      · intro hp
        refine ⟨r, hr, ?_, rfl⟩
        rw [StoredTransfer.existing_key, hseen]
        simp only [Bool.not_false, Bool.and_true]
        exact hp
  · -- the new rows have no part in updates and drops
    conv_rhs => rw [← List.map_id new]
    apply List.map_congr_left
    intro r hr
    have hupdate : ((firsts observed).filterMap (updateFor t.existing)).find?
        (fun u => u.id = r.id) = none := by
      rw [List.find?_eq_none]
      intro u hu hid
      obtain ⟨s, hs, o, -, -, rfl⟩ := mem_updates.1 hu
      exact hfresh r hr s hs (of_decide_eq_true hid)
    rw [Function.comp_apply, hupdate]
    apply if_neg
    rw [mem_drops]
    rintro ⟨s, hs, -, hid⟩
    exact hfresh r hr s hs hid

/-- A row after the run was there before, or is that of a new observation. -/
theorem mem_reconcile {ids : KeySupply Id} {c : StoreContext} {t : TransferTable Id}
    {observed : List TransferObservation} {opts : PlanOpts} {s : StoredTransfer Id}
    (hs : s ∈ (t.reconcile ids c observed opts).rows) :
    (∃ r ∈ t.rows, s = fate c observed opts r) ∨
      ∃ o, observationOf observed s.key = some o ∧ s.toTransferValues = newValues c o := by
  obtain ⟨new, hrows, hvalues⟩ := t.reconcile_rows ids c observed opts
  rw [hrows, List.mem_append, List.mem_map] at hs
  rcases hs with ⟨r, hr, rfl⟩ | hs
  · exact Or.inl ⟨r, hr, rfl⟩
  · right
    have hmem : s.toTransferValues ∈ new.map (·.toTransferValues) := List.mem_map_of_mem hs
    rw [hvalues, List.mem_map] at hmem
    obtain ⟨o, ho, heq⟩ := hmem
    have hkey : s.key = o.key := by rw [← heq]; rfl
    exact ⟨o, hkey ▸ mem_firsts.1 (List.mem_of_mem_filter ho), heq.symm⟩

theorem fate_mem (ids : KeySupply Id) (c : StoreContext) {t : TransferTable Id}
    (observed : List TransferObservation) (opts : PlanOpts) {r : StoredTransfer Id}
    (hr : r ∈ t.rows) : fate c observed opts r ∈ (t.reconcile ids c observed opts).rows := by
  obtain ⟨new, hrows, -⟩ := t.reconcile_rows ids c observed opts
  rw [hrows]
  exact List.mem_append_left _ (List.mem_map_of_mem hr)

/-- A row whose key was observed stands as it was observed. -/
theorem observed_row {ids : KeySupply Id} {c : StoreContext} {t : TransferTable Id}
    {observed : List TransferObservation} {opts : PlanOpts} {s : StoredTransfer Id}
    (hs : s ∈ (t.reconcile ids c observed opts).rows) {o : TransferObservation}
    (ho : observationOf observed s.key = some o) :
    s.status = o.status.stored ∧ changed s.existing o = false := by
  rcases mem_reconcile hs with ⟨r, hr, rfl⟩ | ⟨p, hp, heq⟩
  · rw [fate_key] at ho
    unfold fate
    simp only [ho]
    by_cases hc : changed r.existing o = true
    · rw [if_pos hc]
      simp [StoredTransfer.update, updateOf, changed, StoredTransfer.existing]
    · rw [if_neg hc]
      rw [Bool.not_eq_true] at hc
      refine ⟨?_, hc⟩
      simp only [changed, Bool.or_eq_false_iff, decide_eq_false_iff_not, not_not] at hc
      exact hc.1.1.1
  · rw [ho, Option.some.injEq] at hp
    subst hp
    simp [changed, StoredTransfer.existing, heq, newValues]

/-- Every observed key has a row. -/
theorem exists_row (ids : KeySupply Id) (c : StoreContext) (t : TransferTable Id)
    {observed : List TransferObservation} (opts : PlanOpts) {o : TransferObservation}
    (ho : o ∈ observed) : ∃ s ∈ (t.reconcile ids c observed opts).rows, s.key = o.key := by
  obtain ⟨new, hrows, hvalues⟩ := t.reconcile_rows ids c observed opts
  by_cases h : ∃ r ∈ t.rows, r.key = o.key
  · obtain ⟨r, hr, hkey⟩ := h
    exact ⟨_, fate_mem ids c observed opts hr, by rw [fate_key, hkey]⟩
  · obtain ⟨p, hp⟩ := exists_observationOf ho
    have hpk := observationOf_key hp
    have hmem : newValues c p ∈ new.map (·.toTransferValues) := by
      rw [hvalues]
      refine List.mem_map_of_mem (List.mem_filter.mpr ⟨mem_firsts.2 (hpk ▸ hp), ?_⟩)
      rw [Option.isNone_iff_eq_none, hpk]
      exact byKey_eq_none.2 fun r hr hkey => h ⟨r, hr, hkey⟩
    obtain ⟨s, hs, heq⟩ := List.mem_map.mp hmem
    refine ⟨s, by rw [hrows]; exact List.mem_append_right _ hs, ?_⟩
    rw [heq, ← hpk]
    rfl

/-- What the plan would drop has been dropped. -/
theorem not_gone {ids : KeySupply Id} {c : StoreContext} {t : TransferTable Id}
    {observed : List TransferObservation} {opts : PlanOpts} {s : StoredTransfer Id}
    (hs : s ∈ (t.reconcile ids c observed opts).rows)
    (hkey : observationOf observed s.key = none) (hd : s.status ≠ .dropped) :
    isGone opts s.existing = false := by
  rcases mem_reconcile hs with ⟨r, hr, rfl⟩ | ⟨o, ho, -⟩
  · rw [fate_key] at hkey
    unfold fate at hd ⊢
    simp only [hkey] at hd ⊢
    by_cases hg : (r.status ≠ .dropped && isGone opts r.existing) = true
    · rw [if_pos hg] at hd
      exact absurd rfl hd
    · rw [if_neg hg] at hd ⊢
      simpa [hd] using hg
  · rw [ho] at hkey
    cases hkey

/-- A second plan for the same observations is empty. -/
theorem plan_again (ids : KeySupply Id) (c : StoreContext) (t : TransferTable Id)
    (observed : List TransferObservation) (opts : PlanOpts) :
    planTransfers (t.reconcile ids c observed opts).existing observed opts = .empty := by
  let after := t.reconcile ids c observed opts
  -- every observation finds its row, unchanged
  have hrow : ∀ o ∈ firsts observed, ∃ s ∈ after.rows,
      byKey after.existing o.key = some s.existing ∧ changed s.existing o = false := by
    intro o ho
    have hfirst := (mem_firsts.1 ho)
    obtain ⟨s, hs, hkey⟩ := exists_row ids c t opts (observationOf_mem hfirst)
    exact ⟨s, hs, hkey ▸ byKey_row hs, (observed_row hs (hkey ▸ hfirst)).2⟩
  unfold planTransfers TransferPlan.empty
  simp only [planObserved_eq, TransferPlan.mk.injEq]
  refine ⟨?_, ?_, ?_⟩
  · rw [List.filter_eq_nil_iff]
    intro o ho
    obtain ⟨s, -, hs, -⟩ := hrow o ho
    simp [after] at hs
    simp [hs]
  · rw [List.filterMap_eq_nil_iff]
    intro o ho
    obtain ⟨s, -, hs, hc⟩ := hrow o ho
    rw [updateFor, hs, Option.bind_some, hc]
    rfl
  · rw [List.map_eq_nil_iff, List.filter_eq_nil_iff]
    intro e he
    obtain ⟨s, hs, rfl⟩ := List.mem_map.mp he
    rw [StoredTransfer.existing_key, StoredTransfer.existing_status]
    by_cases hd : s.status = .dropped
    · simp [hd]
    · by_cases hkey : s.key ∈ observed.map (·.key)
      · rw [List.contains_iff_mem.mpr hkey]
        simp
      · rw [not_gone hs (observationOf_eq_none.2 hkey) hd]
        simp

end TransferTable

/-- Reconciliation is exact and idempotent. A second plan for the same observations is
empty, over the rows that the program reads and over all rows. Every observed key has
exactly one row, with the status of its observation. The rows that were there keep their
place, id and key, new rows stand for observed keys only, and a confirmed row is dropped only
when the node told its transaction gone and its key was not observed. -/
theorem reconciliation_is_exact [DecidableEq Id] (ids : KeySupply Id) (c : StoreContext)
    (t : TransferTable Id) (observed : List TransferObservation) (opts : PlanOpts) :
    let after := t.reconcile ids c observed opts
    planTransfers (after.loaded observed opts) observed opts = .empty ∧
    planTransfers after.existing observed opts = .empty ∧
    (∀ o ∈ observed, ∃ p, observationOf observed o.key = some p ∧
      ∃ s ∈ after.rows, s.key = o.key ∧ s.status = p.status.stored ∧
        ∀ s' ∈ after.rows, s'.key = o.key → s' = s) ∧
    (∃ new : List (StoredTransfer Id),
      after.rows.map (fun s => (s.id, s.key)) =
        t.rows.map (fun r => (r.id, r.key)) ++ new.map (fun s => (s.id, s.key)) ∧
      (∀ s ∈ new, s.key ∈ observed.map (·.key) ∧ s.key ∉ t.rows.map (·.key))) ∧
    (after.rows.map (·.id)).Nodup ∧ (after.rows.map (·.key)).Nodup ∧
    (∀ r ∈ t.rows, r.status = .confirmed → ∀ s ∈ after.rows, s.id = r.id →
      s.status = .dropped → r.txid ∈ opts.goneTxids ∧ r.key ∉ observed.map (·.key)) := by
  intro after
  refine ⟨?_, t.plan_again ids c observed opts, ?_, ?_, after.primary, after.keys_nodup, ?_⟩
  · rw [TransferTable.plan_loaded]
    exact t.plan_again ids c observed opts
  · intro o ho
    obtain ⟨p, hp⟩ := exists_observationOf ho
    obtain ⟨s, hs, hkey⟩ := TransferTable.exists_row ids c t opts ho
    exact ⟨p, hp, s, hs, hkey, (TransferTable.observed_row hs (hkey ▸ hp)).1,
      fun s' hs' hkey' => TransferTable.eq_of_key hs' hs (hkey'.trans hkey.symm)⟩
  · obtain ⟨new, hrows, hvalues⟩ := t.reconcile_rows ids c observed opts
    refine ⟨new, ?_, ?_⟩
    · rw [hrows, List.map_append, List.map_map]
      congr 1
      apply List.map_congr_left
      intro r _
      exact Prod.ext (TransferTable.fate_id c observed opts r)
        (TransferTable.fate_key c observed opts r)
    · intro s hs
      have hmem : s.toTransferValues ∈ new.map (·.toTransferValues) := List.mem_map_of_mem hs
      rw [hvalues, List.mem_map] at hmem
      obtain ⟨o, ho, heq⟩ := hmem
      rw [List.mem_filter, Option.isNone_iff_eq_none] at ho
      have hkey : s.key = o.key := by rw [← heq]; rfl
      rw [hkey]
      refine ⟨List.mem_map_of_mem (observationOf_mem (mem_firsts.1 ho.1)), ?_⟩
      rw [List.mem_map]
      rintro ⟨r, hr, hro⟩
      exact TransferTable.byKey_eq_none.1 ho.2 r hr hro
  · intro r hr hc s hs hid hd
    have hfate := TransferTable.fate_mem ids c observed opts hr
    have hsr : s = TransferTable.fate c observed opts r :=
      TransferTable.eq_of_id hs hfate (hid.trans (TransferTable.fate_id c observed opts r).symm)
    cases ho : observationOf observed r.key with
    | some o =>
      have hkey : s.key = r.key := by rw [hsr, TransferTable.fate_key]
      have := (TransferTable.observed_row hs (hkey ▸ ho)).1
      exact absurd (this.symm.trans hd) o.status.stored_ne_dropped
    | none =>
      refine ⟨?_, observationOf_eq_none.1 ho⟩
      by_contra hgone
      -- a confirmed row is not open, so that only its transaction could make it go
      have hkept : isGone opts r.existing = false := by
        have hstatus : r.existing.status = .confirmed := hc
        have htxid : r.existing.txid ∉ opts.goneTxids := hgone
        unfold isGone
        cases opts.rescanned <;> simp [hstatus, htxid]
      rw [hsr] at hd
      unfold TransferTable.fate at hd
      simp only [ho, hkept, Bool.and_false, Bool.false_eq_true, if_false] at hd
      rw [hc] at hd
      cases hd

end Klick
