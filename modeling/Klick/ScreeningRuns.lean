-- Runs of imports and of reconciliations with a node (`wallet-sync.ts`): a transfer that is
-- seen for the first time is marked by the list that its run has loaded, from the senders
-- that the node tells.
import Klick.EthScan
import Klick.Sanctions

open Js Interleaving

namespace Klick.Screening

/-! ## Reading the node -/

/-- What a node tells of an account in a run. -/
structure Reading where
  observations : List TransferObservation
  /-- The addresses of the inputs of a transaction (`vin.prevout.scriptPubKey.address`). -/
  inputs : Text → List (Option Text)
  /-- The sender of a transaction. -/
  sender : Text → Option Text
  opts : PlanOpts
  addressId : Text → Option Text
  payoutByTxid : Text → Option Text
  now : ℤ

/-- The direct senders of a transfer: for Bitcoin the addresses of the inputs, for Ethereum the
sender of the call and that of the transaction. -/
def Reading.sources (g : Reading) (chain : NetworkChain) (txid : Text)
    (counterparty : Option Text) : List (Option Text) :=
  match chain with
  | .bitcoin => g.inputs txid
  | .ethereum => [counterparty, g.sender txid]

/-- Observed, incoming, and not known to the run. -/
def isNew (known : List Text) (o : TransferObservation) : Bool :=
  o.direction = .incoming && o.key ∉ known

/-- Of a new incoming transfer of Bitcoin, the first sender is the counterparty. -/
def Reading.fill (g : Reading) (chain : NetworkChain) (known : List Text)
    (o : TransferObservation) : TransferObservation :=
  if chain = .bitcoin ∧ isNew known o = true ∧ o.counterparty.getD [] = [] then
    { o with counterparty := (knownSources (g.inputs o.txid)).head?.or o.counterparty }
  else o

section Runs

variable (L : AddressCase) (chain : NetworkChain)

/-- The outcome of a key: of two transfers with one key, that of the later one. For Bitcoin the
inputs without an address are left out first. -/
def Reading.screening (g : Reading) (known : List Text) (set : SanctionSet) :
    Text → Option ScreeningOutcome := fun key =>
  (g.observations.reverse.find? fun o => o.key = key && isNew known o).map fun o =>
    match chain with
    | .bitcoin => screenSources L chain set ((knownSources (g.inputs o.txid)).map some)
    | .ethereum => screenSources L chain set [o.counterparty, g.sender o.txid]

def Reading.context (g : Reading) (known : List Text) (set : SanctionSet) : StoreContext where
  addressId := g.addressId
  screening := g.screening L chain known set
  payoutByTxid := g.payoutByTxid
  now := g.now

/-! ## Everything side by side -/

variable {Id : Type} [DecidableEq Id] (ids : KeySupply Id)

/-- A run that has loaded the list, and later the transfers of the account that are known. -/
structure SyncRun where
  rows : List SanctionRow
  /-- The lists at that time. -/
  lists : Lists
  known : Option (List Text)

/-- A transfer that was seen for the first time, as it was marked, its senders and the lists of
that time. -/
structure Marked where
  transfer : TransferValues
  sources : List (Option Text)
  lists : Lists

/-- The table of the sanctions, and the transfers of an account. -/
structure World (Id : Type) where
  rows : List SanctionRow
  /-- What was imported last. -/
  lists : Lists
  transfers : TransferTable Id
  syncs : List SyncRun
  marked : List Marked

def World.keys (w : World Id) : List Text := w.transfers.rows.map fun r => r.key

inductive Act
  | importList (source : SanctionSource) (listVersion : Text) (entries : List ListEntry)
  | load
  /-- The run reads which transfers are known: those of a month, and what is open. -/
  | prepare (i : ℕ) (recent : List Text)
  | apply (i : ℕ) (reading : Reading)

/-- The incoming rows that were not there before. -/
def newlySeen (before after : TransferTable Id) : List (StoredTransfer Id) :=
  after.rows.filter fun r =>
    r.direction = .incoming && r.key ∉ before.rows.map fun r => r.key

/-- One step of anybody. -/
def step (w : World Id) : Act → Option (World Id)
  | .importList source listVersion entries =>
    match replaceSanctionList L w.rows source listVersion entries with
    | none => some w
    | some (rows, _) => some { w with rows, lists := w.lists.set entries source }
  | .load => some { w with syncs := ⟨w.rows, w.lists, none⟩ :: w.syncs }
  | .prepare i recent =>
    if ∀ key ∈ recent, key ∈ w.keys then
      (w.syncs[i]?).map fun r =>
        { w with syncs := w.syncs.set i { r with known := some recent } }
    else none
  | .apply i g =>
    (w.syncs[i]?).bind fun r => r.known.map fun known =>
      let observed := g.observations.map (g.fill chain known)
      let after := w.transfers.reconcile ids
        (g.context L chain known (loadSanctionSet L r.rows)) observed g.opts
      { w with
        transfers := after
        syncs := w.syncs.eraseIdx i
        marked := (newlySeen w.transfers after).map (fun t =>
          ⟨t.toTransferValues, g.sources chain t.txid t.counterparty, w.lists⟩) ++ w.marked }

/-! ## The rule -/

/-- Some sender that the node tells is in the latest list of some source. -/
def SomeListed (lists : Lists) (sources : List (Option Text)) : Prop :=
  ∃ s ∈ knownSources sources, Listed L lists chain s

instance (lists : Lists) (sources : List (Option Text)) :
    Decidable (SomeListed L chain lists sources) :=
  inferInstanceAs (Decidable (∃ s ∈ knownSources sources, _))

/-- A transfer is marked as a hit and frozen if and only if a sender is listed, and as clear only
if all senders are known and none is listed. -/
structure Marked.Sound (m : Marked) : Prop where
  hit : (m.transfer.screening = .hit ∧ m.transfer.frozen = true) ↔
    SomeListed L chain m.lists m.sources
  clear : m.transfer.screening = .clear → AllKnown m.sources ∧ ¬ SomeListed L chain m.lists m.sources
  frozen : m.transfer.frozen = true → m.transfer.screening = .hit

/-- The senders of a transfer are told as the list spells them: each is known unless one is listed,
none has blanks around it, none is listed in lower case only, and the list that was loaded is
still the latest for them. -/
structure Clear (loaded latest : Lists) (sources : List (Option Text)) : Prop where
  known : AllKnown sources ∨ SomeListed L chain latest sources
  plain : chain = .ethereum → ∀ s ∈ knownSources sources, trim s = s
  lower : chain = .bitcoin → (∃ s ∈ knownSources sources, Listed L loaded chain (L.lower s)) →
    SomeListed L chain loaded sources
  latest : SomeListed L chain loaded sources ↔ SomeListed L chain latest sources

/-- Entries are plain, and an import with the version of the rows that are there leaves none of
them out; the senders of what is new are clear, and told once. -/
def Careful (w : World Id) : Act → Prop
  | .importList source listVersion entries => (∀ e ∈ entries, e.Plain L) ∧
      ∀ r ∈ w.rows, r.source = source → r.listVersion = listVersion →
        ∃ e ∈ entries, e.chain = r.chain ∧ storedAddress L e = r.address
  | .apply i g => ∀ r ∈ w.syncs[i]?, ∀ o ∈ g.observations, o.direction = .incoming →
      o.key ∉ w.keys →
        Clear L chain r.lists w.lists (g.sources chain o.txid o.counterparty) ∧
        ∀ o' ∈ g.observations, o'.direction = .incoming → o'.key = o.key → chain = .ethereum →
          o'.counterparty = o.counterparty
  | _ => True

/-- Nothing was imported and nothing seen. -/
structure World.Fresh (w : World Id) : Prop where
  rows : w.rows = []
  lists : w.lists = ⟨[], []⟩
  syncs : w.syncs = []
  marked : w.marked = []

end Runs

/-! ## What a transfer is marked -/

variable {L : AddressCase} {chain : NetworkChain} {Id : Type} [DecidableEq Id] {ids : KeySupply Id}

theorem knownSources_known (sources : List (Option Text)) :
    knownSources ((knownSources sources).map some) = knownSources sources := by
  unfold knownSources
  rw [List.filterMap_map, List.filterMap_filterMap]
  congr 1
  funext s
  cases s with
  | none => rfl
  | some t => by_cases ht : t = [] <;> simp [Option.filter, ht]

theorem Reading.fill_key (g : Reading) (known : List Text) (o : TransferObservation) :
    (g.fill chain known o).key = o.key := by
  unfold Reading.fill
  split_ifs <;> rfl

theorem Reading.fill_direction (g : Reading) (known : List Text) (o : TransferObservation) :
    (g.fill chain known o).direction = o.direction := by
  unfold Reading.fill
  split_ifs <;> rfl

/-- The senders of an observation are those of its row. -/
theorem Reading.sources_fill (g : Reading) (known : List Text) (o : TransferObservation) :
    g.sources chain (g.fill chain known o).txid (g.fill chain known o).counterparty =
      g.sources chain o.txid o.counterparty := by
  have htxid : (g.fill chain known o).txid = o.txid := by
    unfold Reading.fill
    split_ifs <;> rfl
  rw [htxid]
  cases chain with
  | bitcoin => rfl
  | ethereum => simp [Reading.fill]

/-- **The outcome of a new transfer comes from its own senders.** -/
theorem Reading.screening_result (L : AddressCase) {g : Reading} {known : List Text}
    (set : SanctionSet) {o : TransferObservation} (ho : o ∈ g.observations)
    (hnew : isNew known o = true)
    (hsame : ∀ o' ∈ g.observations, o'.direction = .incoming → o'.key = o.key →
      chain = .ethereum → o'.counterparty = o.counterparty) :
    (g.screening L chain known set o.key).map (·.result) =
      some (if ∃ s ∈ knownSources (g.sources chain o.txid o.counterparty),
        (sourceHit L chain set s).isSome = true then .hit else .clear) := by
  unfold Reading.screening
  cases hfind : g.observations.reverse.find? fun o' => o'.key = o.key && isNew known o' with
  | none =>
    have hnot := List.find?_eq_none.mp hfind o (List.mem_reverse.mpr ho)
    simp [hnew] at hnot
  | some o' =>
    have hin := List.mem_reverse.mp (List.mem_of_find?_eq_some hfind)
    have hsome := List.find?_some hfind
    rw [Bool.and_eq_true, decide_eq_true_eq] at hsome
    obtain ⟨hkey, hnew'⟩ := hsome
    have htxid : o'.txid = o.txid := (transferKey_inj hkey).1
    have hincoming : o'.direction = .incoming := by
      unfold isNew at hnew'
      rw [Bool.and_eq_true, decide_eq_true_eq] at hnew'
      exact hnew'.1
    rw [Option.map_some, Option.map_some]
    congr 1
    cases chain with
    | bitcoin =>
      dsimp only
      rw [screenSources_result, knownSources_known, htxid]
      rfl
    | ethereum =>
      dsimp only
      rw [screenSources_result, hsame o' hin hincoming hkey rfl, htxid]
      rfl

/-- **Clear senders are found if and only if they are listed.** -/
theorem Clear.found {loaded latest : Lists} {sources : List (Option Text)} {rows : List SanctionRow}
    (h : Clear L chain loaded latest sources) (hrows : Holds L rows loaded)
    (hplain : ∀ e ∈ loaded.all, e.Plain L) :
    (∃ s ∈ knownSources sources, (sourceHit L chain (loadSanctionSet L rows) s).isSome = true) ↔
      SomeListed L chain latest sources := by
  rw [← h.latest]
  constructor
  · rintro ⟨s, hs, hhit⟩
    rcases (hrows.sourceHit hplain fun hc => h.plain hc s hs).mp hhit with hlisted | ⟨hc, hlow⟩
    · exact ⟨s, hs, hlisted⟩
    · exact h.lower hc ⟨s, hs, hlow⟩
  · rintro ⟨s, hs, hlisted⟩
    exact ⟨s, hs, (hrows.sourceHit hplain fun hc => h.plain hc s hs).mpr (.inl hlisted)⟩

/-! ## Whole runs -/

structure Inv (L : AddressCase) (chain : NetworkChain) (w : World Id) : Prop where
  rows : Holds L w.rows w.lists
  plain : ∀ e ∈ w.lists.all, e.Plain L
  loaded : ∀ r ∈ w.syncs, Holds L r.rows r.lists ∧ ∀ e ∈ r.lists.all, e.Plain L
  known : ∀ r ∈ w.syncs, ∀ known, r.known = some known → ∀ key ∈ known, key ∈ w.keys
  marked : ∀ m ∈ w.marked, m.Sound L chain

/-- No transfer is ever removed. -/
theorem keys_reconcile {t : TransferTable Id} {c : StoreContext} {observed : List TransferObservation}
    {opts : PlanOpts} {key : Text} (h : key ∈ t.rows.map fun r => r.key) :
    key ∈ (t.reconcile ids c observed opts).rows.map fun r => r.key := by
  obtain ⟨r, hr, rfl⟩ := List.mem_map.mp h
  exact List.mem_map.mpr ⟨_, TransferTable.fate_mem ids c observed opts hr,
    TransferTable.fate_key c observed opts r⟩

/-- A row that is new and incoming is that of a new observation. -/
theorem newlySeen_observed {g : Reading} {known : List Text} {set : SanctionSet} {w : World Id}
    (hknown : ∀ key ∈ known, key ∈ w.keys) {t : StoredTransfer Id}
    (ht : t ∈ newlySeen w.transfers (w.transfers.reconcile ids (g.context L chain known set)
      (g.observations.map (g.fill chain known)) g.opts)) :
    ∃ o ∈ g.observations, o.direction = .incoming ∧ o.key ∉ w.keys ∧ isNew known o = true ∧
      t.toTransferValues =
        TransferTable.newValues (g.context L chain known set) (g.fill chain known o) := by
  obtain ⟨hmem, hseen⟩ := List.mem_filter.mp ht
  rw [Bool.and_eq_true, decide_eq_true_eq, decide_eq_true_eq] at hseen
  obtain ⟨hdirection, hkey⟩ := hseen
  rcases TransferTable.mem_reconcile hmem with ⟨r, hr, rfl⟩ | ⟨o', ho', hvalues⟩
  · rw [TransferTable.fate_key] at hkey
    exact absurd (List.mem_map_of_mem hr) hkey
  · have hin := observationOf_mem ho'
    obtain ⟨o, ho, rfl⟩ := List.mem_map.mp hin
    have hk : o.key = t.key := by
      rw [← observationOf_key ho', Reading.fill_key]
    have hincoming : o.direction = .incoming := by
      rw [← g.fill_direction known o, ← hdirection, hvalues]
      rfl
    have hfresh : o.key ∉ w.keys := by
      rw [hk]
      exact hkey
    refine ⟨o, ho, hincoming, hfresh, ?_, hvalues⟩
    unfold isNew
    rw [Bool.and_eq_true, decide_eq_true_eq, decide_eq_true_eq]
    exact ⟨hincoming, fun hin => hfresh (hknown _ hin)⟩

/-- **A transfer that is seen for the first time is marked right**, if its senders are clear. -/
theorem newlySeen_sound {g : Reading} {known : List Text} {r : SyncRun} {w : World Id}
    (hknown : ∀ key ∈ known, key ∈ w.keys) (hrows : Holds L r.rows r.lists)
    (hplain : ∀ e ∈ r.lists.all, e.Plain L)
    (hcareful : ∀ o ∈ g.observations, o.direction = .incoming → o.key ∉ w.keys →
      Clear L chain r.lists w.lists (g.sources chain o.txid o.counterparty) ∧
      ∀ o' ∈ g.observations, o'.direction = .incoming → o'.key = o.key → chain = .ethereum →
        o'.counterparty = o.counterparty) {t : StoredTransfer Id}
    (ht : t ∈ newlySeen w.transfers (w.transfers.reconcile ids
      (g.context L chain known (loadSanctionSet L r.rows))
      (g.observations.map (g.fill chain known)) g.opts)) :
    Marked.Sound L chain
      ⟨t.toTransferValues, g.sources chain t.txid t.counterparty, w.lists⟩ := by
  obtain ⟨o, ho, hincoming, hfresh, hnew, hvalues⟩ := newlySeen_observed hknown ht
  obtain ⟨hclear, hsame⟩ := hcareful o ho hincoming hfresh
  have hsources : g.sources chain t.txid t.counterparty =
      g.sources chain o.txid o.counterparty := by
    rw [← Reading.sources_fill g known o, hvalues]
    rfl
  have hresult := Reading.screening_result L (loadSanctionSet L r.rows) ho hnew hsame
  simp only [hclear.found hrows hplain] at hresult
  have hscreening : t.screening =
      if SomeListed L chain w.lists (g.sources chain o.txid o.counterparty) then .hit
      else .clear := by
    rw [hvalues]
    simp [TransferTable.newValues, Reading.fill_key, Reading.fill_direction, hincoming,
      Reading.context, hresult]
  have hfrozen : t.frozen = true ↔
      SomeListed L chain w.lists (g.sources chain o.txid o.counterparty) := by
    rw [hvalues]
    simp [TransferTable.newValues, Reading.fill_key, Reading.context, hresult]
  rw [hsources]
  refine ⟨?_, ?_, ?_⟩
  · dsimp only
    rw [hfrozen, hscreening]
    constructor
    · exact fun h => h.2
    · exact fun h => ⟨if_pos h, h⟩
  · dsimp only
    rw [hscreening]
    intro h
    split_ifs at h with hlisted
    exact ⟨hclear.known.resolve_right hlisted, hlisted⟩
  · dsimp only
    rw [hfrozen, hscreening]
    exact fun h => if_pos h

theorem Inv.step {w w' : World Id} {a : Act} (h : Inv L chain w) (hok : Careful L chain w a)
    (hstep : step L chain ids w a = some w') : Inv L chain w' := by
  cases a with
  | importList source listVersion entries =>
    simp only [Screening.step] at hstep
    split at hstep
    · cases hstep
      exact h
    · rename_i rows counts hreplace
      cases hstep
      refine ⟨h.rows.replace hreplace hok.2, ?_, h.loaded, h.known, h.marked⟩
      intro e he
      obtain ⟨other, hother⟩ := mem_all.mp he
      rw [Lists.of_set] at hother
      split_ifs at hother
      · exact hok.1 e hother
      · exact h.plain e (mem_all.mpr ⟨other, hother⟩)
  | load =>
    cases hstep
    refine ⟨h.rows, h.plain, ?_, ?_, h.marked⟩
    · exact List.forall_mem_cons.mpr ⟨⟨h.rows, h.plain⟩, h.loaded⟩
    · exact List.forall_mem_cons.mpr ⟨fun _ hnone => (nomatch hnone), h.known⟩
  | prepare i recent =>
    simp only [Screening.step, Option.ite_none_right_eq_some] at hstep
    obtain ⟨hrecent, hstep⟩ := hstep
    obtain ⟨r, hr, rfl⟩ := Option.map_eq_some_iff.mp hstep
    refine ⟨h.rows, h.plain, ?_, ?_, h.marked⟩
    · intro r' hr'
      rcases List.mem_or_eq_of_mem_set hr' with hr' | rfl
      · exact h.loaded r' hr'
      · exact h.loaded r (List.mem_of_getElem? hr)
    · intro r' hr' known hsome
      rcases List.mem_or_eq_of_mem_set hr' with hr' | rfl
      · exact h.known r' hr' known hsome
      · cases hsome
        exact hrecent
  | apply i g =>
    obtain ⟨r, hr, hstep⟩ := Option.bind_eq_some_iff.mp hstep
    obtain ⟨known, hknown, rfl⟩ := Option.map_eq_some_iff.mp hstep
    have hmem := List.mem_of_getElem? hr
    have hkeys := h.known r hmem known hknown
    refine ⟨h.rows, h.plain, ?_, ?_, ?_⟩
    · exact fun r' hr' => h.loaded r' (List.mem_of_mem_eraseIdx hr')
    · intro r' hr' known' hsome key hkey
      exact keys_reconcile (h.known r' (List.mem_of_mem_eraseIdx hr') known' hsome key hkey)
    · intro m hm
      rcases List.mem_append.mp hm with hm | hm
      · obtain ⟨t, ht, rfl⟩ := List.mem_map.mp hm
        obtain ⟨hrows, hplain⟩ := h.loaded r hmem
        exact newlySeen_sound hkeys hrows hplain (hok r hr) ht
      · exact h.marked m hm

/-- **Screening is sound over the life of the lists**: in every run whose imports and readings are
careful, each transfer that is seen for the first time is marked by its own senders. -/
theorem screening_is_sound {start w : World Id} {as : List Act} (hstart : start.Fresh)
    (halong : Along (step L chain ids) (Careful L chain) start as)
    (hrun : run (step L chain ids) start as = some w) : ∀ m ∈ w.marked, m.Sound L chain := by
  have hinv : Inv L chain start := by
    refine ⟨?_, ?_, ?_, ?_, ?_⟩
    · rintro ⟨c, a, source⟩
      cases source <;> simp [hstart.rows, hstart.lists, Lists.of]
    · simp [hstart.lists, Lists.all]
    · simp [hstart.syncs]
    · simp [hstart.syncs]
    · simp [hstart.marked]
  exact (run_keeps (fun _ _ _ h hok hs => h.step hok hs) hinv halong hrun).marked

/-! ## Careless lists -/

instance (m : Marked) : Decidable (m.Sound L chain) :=
  decidable_of_iff
    (((m.transfer.screening = .hit ∧ m.transfer.frozen = true) ↔
        SomeListed L chain m.lists m.sources) ∧
      (m.transfer.screening = .clear → AllKnown m.sources ∧ ¬ SomeListed L chain m.lists m.sources) ∧
      (m.transfer.frozen = true → m.transfer.screening = .hit))
    ⟨fun h => ⟨h.1, h.2.1, h.2.2⟩, fun h => ⟨h.1, h.2, h.3⟩⟩

instance (w : World Id) (a : Act) : Decidable (Careful L chain w a) := by
  have hclear : ∀ loaded latest sources, Decidable (Clear L chain loaded latest sources) := by
    intro loaded latest sources
    refine decidable_of_iff
      ((AllKnown sources ∨ SomeListed L chain latest sources) ∧
        (chain = .ethereum → ∀ s ∈ knownSources sources, trim s = s) ∧
        (chain = .bitcoin → (∃ s ∈ knownSources sources, Listed L loaded chain (L.lower s)) →
          SomeListed L chain loaded sources) ∧
        (SomeListed L chain loaded sources ↔ SomeListed L chain latest sources))
      ⟨fun h => ⟨h.1, h.2.1, h.2.2.1, h.2.2.2⟩, fun h => ⟨h.1, h.2, h.3, h.4⟩⟩
  cases a <;> unfold Careful <;> infer_instance

/-- Nothing was imported, and no transfer seen. -/
def unused : World ℕ := ⟨[], ⟨[], []⟩, TransferTable.empty, [], []⟩

theorem unused_fresh : unused.Fresh := ⟨rfl, rfl, rfl, rfl⟩

/-- A payment of a thousand satoshis, with the addresses of its inputs. -/
def payment (sources : List (Option Text)) : Reading where
  observations := [⟨.incoming, .btc, 1000, js "t", ⟨js "in:vout:0", by decide⟩, js "bc1qown", none,
    none, none, none, 0, .pending⟩]
  inputs _ := sources
  sender _ := none
  opts := ⟨[], none⟩
  addressId _ := none
  payoutByTxid _ := none
  now := 0

def btcEntry (address : Text) : ListEntry := ⟨.bitcoin, address, js "SDN"⟩

/-- The list is loaded, and then a payment is seen. -/
def paid (sources : List (Option Text)) : List Act :=
  [.load, .prepare 0 [], .apply 0 (payment sources)]

/-- A transfer is marked wrong after these steps. -/
def Misjudged (as : List Act) : Prop :=
  ∃ w ∈ run (step asciiAddresses .bitcoin counting) unused as,
    ∃ m ∈ w.marked, ¬ m.Sound asciiAddresses .bitcoin

instance (as : List Act) : Decidable (Misjudged as) :=
  inferInstanceAs (Decidable (∃ w ∈ run (step asciiAddresses .bitcoin counting) unused as, _))

theorem screening_misjudges :
    -- a blank before a Bech32 address with capital letters
    Misjudged (.importList .platform (js "1") [btcEntry (js " BC1QBAD")] ::
      paid [some (js "bc1qbad")]) ∧
    -- an input without an address
    Misjudged (.importList .ofac (js "1") [btcEntry (js "bc1qbad")] :: paid [none]) ∧
    -- an entry that a list of the same version leaves out
    Misjudged (.importList .ofac (js "1") [btcEntry (js "bc1qbad")] ::
      .importList .ofac (js "1") [btcEntry (js "bc1qworse")] :: paid [some (js "bc1qbad")]) ∧
    -- another address in lower case
    Misjudged (.importList .platform (js "1") [btcEntry (js "1bad")] :: paid [some (js "1BAD")]) ∧
    -- a list that is imported after the list was loaded
    Misjudged [.load, .prepare 0 [], .importList .ofac (js "1") [btcEntry (js "bc1qbad")],
      .apply 0 (payment [some (js "bc1qbad")])] := by
  refine ⟨?_, ?_, ?_, ?_, ?_⟩ <;> decide

/-- A list that is replaced, and a payment from an address of the new one. -/
def screenedPayment : List Act :=
  .importList .ofac (js "1") [btcEntry (js "bc1qbad")] ::
    .importList .ofac (js "2") [btcEntry (js "BC1QWORSE ")] ::
    paid [some (js "bc1qbad"), some (js "bc1qworse")]

theorem screening_is_sound_sample :
    ∃ w, run (step asciiAddresses .bitcoin counting) unused screenedPayment = some w ∧
      w.marked.map (·.transfer.frozen) = [true] ∧
      ∀ m ∈ w.marked, m.Sound asciiAddresses .bitcoin := by
  have hsome : ∃ w ∈ run (step asciiAddresses .bitcoin counting) unused screenedPayment,
      w.marked.map (·.transfer.frozen) = [true] := by
    decide
  obtain ⟨w, hw, hfrozen⟩ := hsome
  refine ⟨w, hw, hfrozen, screening_is_sound unused_fresh ?_ hw⟩
  decide

end Klick.Screening
