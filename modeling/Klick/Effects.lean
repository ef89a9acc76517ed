-- What a command does to the signer: it leaves journal and state as they are,
-- or it records one event, folds it, and answers. The seeds on the disk and in
-- memory may change beside that.
import Klick.Guards

open Js

namespace Klick

/-! ## Recording one event -/

/-- Nothing is recorded; or one event that may be, and then there is an answer. -/
inductive Effect (P : Platform) (g : Signer) (call : Call) {α : Type} (o : Outcome α) : Prop
  | nothing : o.recorded = [] → o.signer.journal = g.journal → o.signer.state = g.state →
      Effect P g call o
  | event {body j entry s'} : Admitted P g.state call.clock.now body → Drawn call body →
      g.journal.append P.hash (body.draft (call.clock.stamp 0)) = .ok (j, entry) →
      apply P.addresses g.state ⟨entry.seq, call.clock.stamp 0, body⟩ = .ok s' →
      o.recorded = [⟨entry.seq, call.clock.stamp 0, body⟩] → o.signer.journal = j →
      o.signer.state = s' → (∃ v, o.result = .ok v) → Effect P g call o

/-- An event that may be recorded is folded without an error. -/
theorem apply_of_admitted {P : Platform} (hA : AddressShapes P.addresses) {s : SignerState}
    {now : ℤ} {body : EventBody} (h : Admitted P s now body) (n : ℕ) (t : ℤ) :
    ∃ s', apply P.addresses s ⟨n, t, body⟩ = .ok s' := by
  cases h with
  | @intent intentId text mandateId i hf =>
    obtain ⟨hv, ht⟩ := encodeIntent_eq_ok.mp hf.encoded
    have hp := (parseIntent_eq_ok hA).mpr ⟨hv, hf.fits, ht⟩
    simp only [apply, hp]
    exact ⟨_, rfl⟩
  | mandate hm _ =>
    simp only [apply, hm]
    exact ⟨_, rfl⟩
  | _ => exact ⟨_, rfl⟩

section Effects

variable {P : Platform} {g : Signer} {call : Call}

variable (call) in
/-- An event that may be recorded is not written, or written and folded. -/
theorem record_cases (hA : AddressShapes P.addresses) {body : EventBody} {now : ℤ}
    (h : Admitted P g.state now body) (k : ℕ) :
    (∃ f, record P g call k body = .refused g f) ∨
    ∃ j entry s', g.journal.append P.hash (body.draft (call.clock.stamp k)) = .ok (j, entry) ∧
      apply P.addresses g.state ⟨entry.seq, call.clock.stamp k, body⟩ = .ok s' ∧
      record P g call k body = ⟨.ok ⟨entry.seq, call.clock.stamp k, body⟩,
        { g with journal := j, state := s' }, [⟨entry.seq, call.clock.stamp k, body⟩]⟩ := by
  unfold record
  cases happ : g.journal.append P.hash (body.draft (call.clock.stamp k)) with
  | error f => exact .inl ⟨_, rfl⟩
  | ok p =>
    obtain ⟨j, entry⟩ := p
    by_cases hw : call.writes k = true
    · right
      obtain ⟨s', hs⟩ := apply_of_admitted hA h entry.seq (call.clock.stamp k)
      refine ⟨j, entry, s', rfl, hs, ?_⟩
      simp [hw, hs]
    · left
      exact ⟨.write, by simp [hw]⟩

/-- The parts of a signer beside journal and state. -/
structure SameSeeds (g g' : Signer) : Prop where
  keys : g'.keys = g.keys
  seedFile : g'.seedFile = g.seedFile
  prepared : g'.prepared = g.prepared

theorem carryOut_effect (hA : AddressShapes P.addresses) {d : Except Failure Decision}
    (hd : ∀ dec, d = .ok dec → dec.Sound P g.state call) :
    Effect P g call (carryOut P g call d) ∧ SameSeeds g (carryOut P g call d).signer ∧
      ∀ e ∈ (carryOut P g call d).recorded, e.body.isInit = false := by
  have hnone : ∀ e ∈ ([] : List SignerEvent), e.body.isInit = false :=
    fun e he => absurd he List.not_mem_nil
  unfold carryOut
  match d, hd with
  | .error f, _ => exact ⟨.nothing rfl rfl rfl, ⟨rfl, rfl, rfl⟩, hnone⟩
  | .ok ⟨none, reply⟩, _ => exact ⟨.nothing rfl rfl rfl, ⟨rfl, rfl, rfl⟩, hnone⟩
  | .ok ⟨some body, reply⟩, hd =>
    have hsound := hd _ rfl
    have hadm := hsound.admitted body rfl
    rcases record_cases call hA hadm 0 with ⟨f, hr⟩ | ⟨j, entry, s', happ, hs, hr⟩
    · simp only [hr, Outcome.refused]
      exact ⟨.nothing rfl rfl rfl, ⟨rfl, rfl, rfl⟩, hnone⟩
    · simp only [hr]
      refine ⟨.event hadm (hsound.drawn body rfl) happ hs rfl rfl rfl
        (hsound.replies body _ _ _ rfl hs), ⟨rfl, rfl, rfl⟩, fun e he => ?_⟩
      rw [List.mem_singleton.mp he]
      exact hsound.noInit body rfl

/-! ## The networks of seeds -/

def Prepared.networks (p : Prepared) : List WalletNetwork := p.entropy.entries.map Prod.fst

theorem openSeeds_networks {K : KeyLib} {kek : Bytes} {seeds : List (WalletNetwork × SealedSeed)}
    {ring ring' : KeyRing} (h : KeyRing.openSeeds K kek seeds ring = .ok ring')
    (n : WalletNetwork) : (ring'.masters.get n).isSome ↔
      n ∈ seeds.map Prod.fst ∨ (ring.masters.get n).isSome := by
  induction seeds generalizing ring with
  | nil =>
    cases h
    simp
  | cons e seeds ih =>
    obtain ⟨k, s⟩ := e
    unfold KeyRing.openSeeds at h
    split at h
    · cases h
    · rw [ih h, OrderedMap.isSome_get_set]
      simp only [List.map_cons, List.mem_cons]
      tauto

/-- The key ring has the networks of the file. -/
theorem load_networks {K : KeyLib} {file : SeedFile} {kek : Bytes} {ring : KeyRing}
    (h : KeyRing.load K file kek = .ok ring) (n : WalletNetwork) :
    (ring.masters.get n).isSome ↔ (file.seeds.get n).isSome := by
  have hr := openSeeds_networks h n
  rw [← OrderedMap.isSome_get_iff] at hr
  simpa [KeyRing.empty] using hr

theorem sealSeeds_networks {K : KeyLib} {kek : Bytes} {random : RandomSource} (k : ℕ)
    (seeds : List (WalletNetwork × Bytes)) (file : SeedFile) (n : WalletNetwork) :
    ((sealSeeds K kek random k seeds file).seeds.get n).isSome ↔
      n ∈ seeds.map Prod.fst ∨ (file.seeds.get n).isSome := by
  induction seeds generalizing k file with
  | nil => simp [sealSeeds]
  | cons e seeds ih =>
    obtain ⟨m, entropy⟩ := e
    rw [sealSeeds, ih, OrderedMap.isSome_get_set]
    simp only [List.map_cons, List.mem_cons]
    tauto

theorem openAll_networks {K : KeyLib} {kek : Bytes} {seeds : List (WalletNetwork × SealedSeed)}
    {opened : List (WalletNetwork × Bytes)} (h : openAll K kek seeds = .ok opened) :
    opened.map Prod.fst = seeds.map Prod.fst := by
  induction seeds generalizing opened with
  | nil =>
    cases h
    rfl
  | cons e seeds ih =>
    simp only [openAll, bind_eq_ok, pure_eq_ok] at h
    obtain ⟨entropy, -, rest, hrest, rfl⟩ := h
    simp [ih hrest]

/-! ## What every command keeps -/

/-- The records lie at their ids; every network in memory is on the disk; an
initialised signer has a network, and prepared seeds are for others. -/
structure SignerInv (g : Signer) : Prop where
  ids : IdsMatch g.state
  stored : ∀ n, (g.keys.masters.get n).isSome → (g.seedFile.seeds.get n).isSome
  seeded : g.state.init.isSome → ∃ n, n.live = false ∧ (g.state.fingerprints n).isSome ∧
    (g.keys.masters.get n).isSome
  prepared : ∀ p, g.prepared = some p → p.networks ≠ [] ∧
    ∀ n ∈ p.networks, g.keys.masters.get n = none

/-- Only an initialisation initialises, and no fingerprint is taken away. -/
theorem apply_keeps_init {A : AddressLib} {s s' : SignerState} {e : SignerEvent}
    (h : apply A s e = .ok s') (hne : e.body.isInit = false) :
    s'.init = s.init ∧ ∀ n, (s.fingerprints n).isSome → (s'.fingerprints n).isSome := by
  obtain ⟨k, t, body⟩ := e
  cases body <;> simp only [apply, Except.ok.injEq] at h
  case init => cases hne
  case networkAdded =>
    subst h
    refine ⟨rfl, fun n hn => ?_⟩
    simp only [Function.update_apply]
    split
    · rfl
    · exact hn
  case intent =>
    obtain ⟨i, -, h⟩ := bind_eq_ok.mp h
    obtain rfl := Except.ok.inj h
    exact ⟨rfl, fun _ hn => hn⟩
  case mandate =>
    split at h <;> obtain rfl := Except.ok.inj h <;> exact ⟨rfl, fun _ hn => hn⟩
  all_goals
    subst h
    exact ⟨rfl, fun _ hn => hn⟩

theorem SignerInv.of_same {g g' : Signer} (h : SignerInv g) (hseeds : SameSeeds g g')
    (hids : IdsMatch g'.state) (hinit : g'.state.init = g.state.init)
    (hf : ∀ n, (g.state.fingerprints n).isSome → (g'.state.fingerprints n).isSome) :
    SignerInv g' where
  ids := hids
  stored := by
    rw [hseeds.keys, hseeds.seedFile]
    exact h.stored
  seeded := by
    rw [hinit, hseeds.keys]
    intro hi
    obtain ⟨n, hlive, hfn, hkey⟩ := h.seeded hi
    exact ⟨n, hlive, hf n hfn, hkey⟩
  prepared := by
    rw [hseeds.prepared, hseeds.keys]
    exact h.prepared

/-- A command that records at most one event, no initialisation, and leaves the seeds. -/
theorem SignerInv.of_effect {g : Signer} {call : Call} {α : Type} {o : Outcome α}
    (h : SignerInv g) (he : Effect P g call o) (hseeds : SameSeeds g o.signer)
    (hno : ∀ e ∈ o.recorded, e.body.isInit = false) : SignerInv o.signer := by
  cases he with
  | nothing hrec hj hs =>
    refine h.of_same hseeds ?_ ?_ ?_ <;> rw [hs]
    · exact h.ids
    · exact fun _ hn => hn
  | event hadm _ happ happly hrec hj hs hok =>
    obtain ⟨hinit, hf⟩ := apply_keeps_init happly (hno _ (by rw [hrec]; exact List.mem_cons_self))
    refine h.of_same hseeds ?_ ?_ ?_ <;> rw [hs]
    · exact h.ids.apply happly
    · exact hinit
    · exact hf

theorem carryOut_keeps (hA : AddressShapes P.addresses) (h : SignerInv g)
    {d : Except Failure Decision} (hd : ∀ dec, d = .ok dec → dec.Sound P g.state call) :
    Effect P g call (carryOut P g call d) ∧ SignerInv (carryOut P g call d).signer := by
  obtain ⟨he, hseeds, hno⟩ := carryOut_effect hA hd
  exact ⟨he, h.of_effect he hseeds hno⟩

/-! ## Storing seeds -/

/-- What storing a file of seeds can come to. -/
structure Stored (g : Signer) (K : KeyLib) (file : SeedFile) (o : Outcome Unit) : Prop where
  recorded : o.recorded = []
  journal : o.signer.journal = g.journal
  state : o.signer.state = g.state
  dev : o.signer.dev = g.dev
  prepared : o.signer.prepared = g.prepared
  networks : (o.signer.keys = g.keys ∧ (o.signer.seedFile = g.seedFile ∨
      o.signer.seedFile = file)) ∨
    (o.signer.seedFile = file ∧ ∀ n, (o.signer.keys.masters.get n).isSome ↔
      (file.seeds.get n).isSome)
  stores : o.result = .ok () → o.signer.seedFile = file ∧
    ∀ n, (o.signer.keys.masters.get n).isSome ↔ (file.seeds.get n).isSome

variable (P g call) in
theorem storeSeeds_stored (file : SeedFile) :
    Stored g P.keys file (storeSeeds P g call file) := by
  unfold storeSeeds
  by_cases hw : call.writesSeeds = true
  · simp only [hw, Bool.not_true, Bool.false_eq_true, if_false]
    cases hload : KeyRing.load P.keys file g.kek with
    | error e =>
      exact ⟨rfl, rfl, rfl, rfl, rfl, .inl ⟨rfl, .inr rfl⟩, nofun⟩
    | ok keys =>
      have hnet := load_networks hload
      simp only
      cases keys.selfTest P.keys with
      | error e => exact ⟨rfl, rfl, rfl, rfl, rfl, .inr ⟨rfl, hnet⟩, nofun⟩
      | ok u => exact ⟨rfl, rfl, rfl, rfl, rfl, .inr ⟨rfl, hnet⟩, fun _ => ⟨rfl, hnet⟩⟩
  · simp only [hw, Bool.not_false, if_true]
    exact ⟨rfl, rfl, rfl, rfl, rfl, .inl ⟨rfl, .inl rfl⟩, nofun⟩

theorem confirmPrepared_eq_ok {a : Value} {p : Prepared}
    (h : confirmPrepared P g call a = .ok p) : g.prepared = some p := by
  unfold confirmPrepared at h
  simp only [bind_eq_ok, orRefuse_eq_ok, check_eq_ok, exists_const, pure_eq_ok] at h
  obtain ⟨p', hp, _, -, -, -, _, -, _, -, rfl⟩ := h
  exact hp

/-- What taking the prepared seeds can come to. -/
structure Taken (g : Signer) (o : Outcome Prepared) : Prop where
  recorded : o.recorded = []
  journal : o.signer.journal = g.journal
  state : o.signer.state = g.state
  dev : o.signer.dev = g.dev
  inv : SignerInv o.signer
  takes : ∀ p, o.result = .ok p → g.prepared = some p ∧
    ∀ n ∈ p.networks, (o.signer.keys.masters.get n).isSome

theorem takePrepared_taken (h : SignerInv g) (a : Value) :
    Taken g (takePrepared P g call a) := by
  unfold takePrepared
  cases hp : confirmPrepared P g call a with
  | error f => exact ⟨rfl, rfl, rfl, rfl, h, nofun⟩
  | ok p =>
    have hprep := confirmPrepared_eq_ok hp
    let file := sealSeeds P.keys g.kek call.random 0 p.entropy.entries g.seedFile
    have hs := storeSeeds_stored P { g with prepared := none } call file
    have hfile : ∀ n, (file.seeds.get n).isSome ↔ n ∈ p.networks ∨ (g.seedFile.seeds.get n).isSome :=
      sealSeeds_networks 0 p.entropy.entries g.seedFile
    have hinv : SignerInv (storeSeeds P { g with prepared := none } call file).signer := by
      -- the file has the networks it had, and those in memory are in the file
      have hkeys : ∀ n, (g.keys.masters.get n).isSome →
          ((storeSeeds P { g with prepared := none } call file).signer.keys.masters.get n).isSome := by
        intro n hn
        rcases hs.networks with ⟨hk, -⟩ | ⟨-, hk⟩
        · rw [hk]
          exact hn
        · exact (hk n).mpr ((hfile n).mpr (.inr (h.stored n hn)))
      constructor
      · rw [hs.state]
        exact h.ids
      · intro n hn
        rcases hs.networks with ⟨hk, hf | hf⟩ | ⟨hf, hk⟩
        · rw [hk] at hn
          rw [hf]
          exact h.stored n hn
        · rw [hk] at hn
          rw [hf]
          exact (hfile n).mpr (.inr (h.stored n hn))
        · rw [hf]
          exact (hk n).mp hn
      · rw [hs.state]
        intro hi
        obtain ⟨n, hlive, hfn, hkey⟩ := h.seeded hi
        exact ⟨n, hlive, hfn, hkeys n hkey⟩
      · intro q hq
        rw [hs.prepared] at hq
        cases hq
    unfold Outcome.andThen
    cases hres : (storeSeeds P { g with prepared := none } call file).result with
    | error f =>
      simp only [file] at hres
      simp only [hres]
      exact ⟨hs.recorded, hs.journal, hs.state, hs.dev, hinv, nofun⟩
    | ok u =>
      simp only [file] at hres
      simp only [hres]
      refine ⟨by simpa [Outcome.answered] using hs.recorded, hs.journal, hs.state, hs.dev, hinv,
        ?_⟩
      rintro _ ⟨⟩
      refine ⟨hprep, fun n hn => ?_⟩
      exact ((hs.stores hres).2 n).mpr ((hfile n).mpr (.inl hn))

/-- An event that may be recorded, and an answer after it, where the seeds have changed before. -/
theorem record_answered (hA : AddressShapes P.addresses) {g1 : Signer}
    (hj : g1.journal = g.journal) (hs : g1.state = g.state) (hinv : SignerInv g1)
    {body : EventBody} (hadm : Admitted P g.state call.clock.now body) (hdrawn : Drawn call body)
    (reply : Signer → Value)
    (hseeded : ∀ n t s', apply P.addresses g1.state ⟨n, t, body⟩ = .ok s' → s'.init.isSome →
      ∃ n, n.live = false ∧ (s'.fingerprints n).isSome ∧ (g1.keys.masters.get n).isSome) :
    Effect P g call ((record P g1 call 0 body).andThen fun g _ => .answered g (reply g)) ∧
    SignerInv ((record P g1 call 0 body).andThen fun g _ => .answered g (reply g)).signer := by
  have hadm1 : Admitted P g1.state call.clock.now body := by rw [hs]; exact hadm
  rcases record_cases call hA hadm1 0 with ⟨f, hr⟩ | ⟨j, entry, s', happ, happly, hr⟩
  · rw [hr]
    exact ⟨.nothing rfl hj hs, hinv⟩
  · rw [hr]
    refine ⟨?_, hinv.ids.apply happly, hinv.stored, hseeded _ _ _ happly, hinv.prepared⟩
    rw [hj] at happ
    rw [hs] at happly
    exact .event hadm hdrawn happ happly rfl rfl rfl ⟨_, rfl⟩

/-- An event that is no initialisation leaves a network to an initialised signer. -/
theorem SignerInv.seeded_apply {A : AddressLib} (h : SignerInv g) {body : EventBody}
    (hne : body.isInit = false) (n : ℕ) (t : ℤ) (s' : SignerState)
    (happly : apply A g.state ⟨n, t, body⟩ = .ok s') (hi : s'.init.isSome) :
    ∃ n, n.live = false ∧ (s'.fingerprints n).isSome ∧ (g.keys.masters.get n).isSome := by
  obtain ⟨hinit, hf⟩ := apply_keeps_init happly hne
  rw [hinit] at hi
  obtain ⟨k, hlive, hfk, hkey⟩ := h.seeded hi
  exact ⟨k, hlive, hf k hfk, hkey⟩

/-- The part of a command after the prepared seeds were taken. -/
theorem Taken.andThen {o : Outcome Prepared} (h : Taken g o) {f : Signer → Prepared → Outcome Value}
    (hf : ∀ g1 p, g1.journal = g.journal → g1.state = g.state → SignerInv g1 →
      g.prepared = some p → (∀ n ∈ p.networks, (g1.keys.masters.get n).isSome) →
      Effect P g call (f g1 p) ∧ SignerInv (f g1 p).signer) :
    Effect P g call (o.andThen f) ∧ SignerInv (o.andThen f).signer := by
  obtain ⟨result, g1, recorded⟩ := o
  obtain ⟨rfl, hj, hs, -, hinv, htakes⟩ := h
  cases result with
  | error e => exact ⟨.nothing rfl hj hs, hinv⟩
  | ok p =>
    obtain ⟨hprep, hkeys⟩ := htakes p rfl
    obtain ⟨heff, hinv'⟩ := hf g1 p hj hs hinv hprep hkeys
    refine ⟨?_, hinv'⟩
    cases heff with
    | nothing h1 h2 h3 => exact .nothing (by simpa [Outcome.andThen] using h1) h2 h3
    | event h1 hd h2 h3 h4 h5 h6 h7 =>
      exact .event h1 hd h2 h3 (by simpa [Outcome.andThen] using h4) h5 h6 h7

/-! ## The commands around seeds -/

theorem seedPrepare_effect : Effect P g call (seedPrepare P g call) := by
  unfold seedPrepare
  split
  · exact .nothing rfl rfl rfl
  · exact .nothing rfl rfl rfl

theorem prepare_networks {p : Prepared} (h : prepare P g call = .ok p) :
    p.networks ≠ [] ∧ ∀ n ∈ p.networks, g.keys.masters.get n = none := by
  unfold prepare at h
  simp only [bind_eq_ok] at h
  obtain ⟨a, -, networks, hnetworks, h⟩ := h
  split at h
  · cases h
  · rename_i hnew
    simp only [bind_eq_ok, pure_eq_ok] at h
    obtain ⟨dice, -, rfl⟩ := h
    have hmem : ∀ n, n ∈ Prepared.networks ⟨call.randomHex networks.length 16,
        drawEntropy P.hash call.random dice 0 networks .empty, plus call.clock.now (15 * 60),
        by
          intro n hn
          rw [← OrderedMap.isSome_get_iff, drawEntropy_networks] at hn
          rcases hn with hn | hn
          · exact (checkNew_eq_ok.mp hnew n hn).1
          · cases hn⟩ ↔ n ∈ networks := by
      intro n
      unfold Prepared.networks
      rw [← OrderedMap.isSome_get_iff, drawEntropy_networks]
      simp
    constructor
    · intro hnil
      unfold networksArg at hnetworks
      split at hnetworks
      · simp only [bind_eq_ok, check_eq_ok, exists_const, decide_eq_true_eq] at hnetworks
        obtain ⟨hne, hmap⟩ := hnetworks
        cases networks with
        | nil =>
          rename_i items _
          cases items with
          | nil => exact hne rfl
          | cons v vs =>
            simp only [List.mapM_cons, bind_eq_ok, pure_eq_ok] at hmap
            obtain ⟨_, -, _, -, hc⟩ := hmap
            cases hc
        | cons n ns =>
          have hn := (hmem n).mpr List.mem_cons_self
          rw [hnil] at hn
          cases hn
      · cases hnetworks
    · intro n hn
      have hfp := (checkNew_eq_ok.mp hnew n ((hmem n).mp hn)).2
      simpa [KeyRing.fingerprint] using hfp

theorem seedPrepare_inv (h : SignerInv g) : SignerInv (seedPrepare P g call).signer := by
  unfold seedPrepare
  cases hp : prepare P g call with
  | error f => exact h
  | ok p =>
    refine ⟨h.ids, h.stored, h.seeded, fun q hq => ?_⟩
    obtain rfl := Option.some.inj hq
    exact @prepare_networks P g call p hp

theorem initArgs_eq_ok {a : Value} {i : InitArgs} (h : initArgs P g a = .ok i) :
    g.state.init = none := by
  unfold initArgs at h
  simp only [bind_eq_ok, check_eq_ok, exists_const] at h
  simpa using h.1

/-- The fingerprints of an initialisation are those of the prepared networks. -/
theorem fingerprints_isSome {K : KeyLib} (p : Prepared) (n : WalletNetwork) :
    (p.fingerprints K n).isSome ↔ n ∈ p.networks := by
  rw [Prepared.fingerprints, Option.isSome_map, Prepared.networks]
  exact p.entropy.isSome_get_iff n

theorem initCommit_effect (hA : AddressShapes P.addresses) (h : SignerInv g) :
    Effect P g call (initCommit P g call) ∧ SignerInv (initCommit P g call).signer := by
  unfold initCommit
  split
  · exact ⟨.nothing rfl rfl rfl, h⟩
  · rename_i a i hargs
    simp only [bind_eq_ok, pure_eq_ok, Prod.mk.injEq] at hargs
    obtain ⟨a', -, i', hi, rfl, rfl⟩ := hargs
    have hnone := initArgs_eq_ok hi
    apply (takePrepared_taken h a').andThen
    intro g1 p hj hs hinv hprep hkeys
    refine record_answered hA hj hs hinv (.init hnone) nofun _ ?_
    intro _ _ s' happly _
    have hfp : s'.fingerprints = p.fingerprints P.keys := by rw [← Except.ok.inj happly]
    obtain ⟨n, hn⟩ := List.exists_mem_of_ne_nil _ (h.prepared p hprep).1
    refine ⟨n, p.notLive n hn, ?_, hkeys n hn⟩
    rw [hfp]
    exact (fingerprints_isSome p n).mpr hn

/-- Of the two networks without real money, an initialised signer has one, so
prepared seeds are for the other. -/
theorem SignerInv.one_network (h : SignerInv g) {p : Prepared} (hp : g.prepared = some p)
    (hinit : g.state.init.isSome) : ∃ n entropy, p.entropy.entries = [(n, entropy)] := by
  obtain ⟨n0, hlive0, -, hkey0⟩ := h.seeded hinit
  obtain ⟨hne, hnone⟩ := h.prepared p hp
  have hother : ∀ n ∈ p.networks, n.live = false ∧ n ≠ n0 := by
    intro n hn
    refine ⟨p.notLive n hn, ?_⟩
    rintro rfl
    rw [hnone n hn] at hkey0
    cases hkey0
  have hsame : ∀ m ∈ p.networks, ∀ n ∈ p.networks, m = n := by
    intro m hm n hn
    obtain ⟨hm1, hm2⟩ := hother m hm
    obtain ⟨hn1, hn2⟩ := hother n hn
    cases m <;> cases n <;> cases n0 <;> simp_all [WalletNetwork.live]
  have hnodup := p.entropy.nodup
  unfold Prepared.networks at hne hsame
  rcases hes : p.entropy.entries with - | ⟨⟨n, entropy⟩, - | ⟨e2, es⟩⟩
  · simp [hes] at hne
  · exact ⟨n, entropy, rfl⟩
  · rw [hes] at hnodup hsame
    have := hsame n (by simp) e2.1 (by simp)
    simp [this] at hnodup

theorem networkCommit_effect (hA : AddressShapes P.addresses) (h : SignerInv g) :
    Effect P g call (networkCommit P g call) ∧ SignerInv (networkCommit P g call).signer := by
  unfold networkCommit
  split
  · exact ⟨.nothing rfl rfl rfl, h⟩
  · rename_i a hargs
    simp only [bind_eq_ok] at hargs
    obtain ⟨⟨init, policy⟩, hreq, -⟩ := hargs
    have hsome : g.state.init.isSome := by rw [(requireInit_eq_ok.mp hreq).1]; rfl
    apply (takePrepared_taken h a).andThen
    intro g1 p hj hs hinv hprep _
    obtain ⟨n, entropy, hone⟩ := h.one_network hprep hsome
    have hloop : recordNetworks P call 0 p.entropy.entries g1 =
        (record P g1 call 0 (.networkAdded n (P.keys.fingerprint n entropy))).andThen
          fun g _ => .answered g () := by
      rw [hone]
      rfl
    rw [hloop, Outcome.andThen_assoc]
    exact record_answered hA hj hs hinv (.networkAdded hsome) (drawn_of_isPlain rfl) _
      (hinv.seeded_apply rfl)

theorem rekey_effect (hA : AddressShapes P.addresses) (h : SignerInv g) :
    Effect P g call (rekey P g call) ∧ SignerInv (rekey P g call).signer := by
  unfold rekey
  split
  · exact ⟨.nothing rfl rfl rfl, h⟩
  · rename_i next file hfile
    simp only [bind_eq_ok, internal_eq_ok, pure_eq_ok, Prod.mk.injEq] at hfile
    obtain ⟨next', -, seeds, hseeds, rfl, rfl⟩ := hfile
    by_cases hw : call.writesSeeds = true
    · simp only [hw, Bool.not_true, Bool.false_eq_true, if_false]
      let g1 := { g with
        seedFile := sealSeeds P.keys next' call.random 0 seeds .empty, kek := next' }
      have hinv : SignerInv g1 := by
        refine ⟨h.ids, fun n hn => ?_, h.seeded, h.prepared⟩
        have hstored := h.stored n hn
        rw [sealSeeds_networks, openAll_networks hseeds, ← OrderedMap.isSome_get_iff]
        exact .inl hstored
      exact @record_answered P g call hA g1 rfl rfl hinv _ .rekey (drawn_of_isPlain rfl) _
        (hinv.seeded_apply rfl)
    · simp only [hw, Bool.not_false, if_true]
      exact ⟨.nothing rfl rfl rfl, h⟩

/-! ## Every command -/

/-- A decision without an event. -/
theorem answer_sound {d : Decision} (h : ∃ v, d = .answer v) :
    d.Sound P g.state call := by
  obtain ⟨v, rfl⟩ := h
  exact sound_answer v

theorem intentGet_answers {d : Decision} (h : intentGet P g call = .ok d) :
    ∃ v, d = .answer v := by
  unfold intentGet at h
  simp only [bind_eq_ok, pure_eq_ok] at h
  obtain ⟨a, -, ⟨init, policy⟩, -, r, -, rfl⟩ := h
  exact ⟨_, rfl⟩

theorem mandateGet_answers {d : Decision} (h : mandateGet P g call = .ok d) :
    ∃ v, d = .answer v := by
  unfold mandateGet at h
  simp only [bind_eq_ok, pure_eq_ok] at h
  obtain ⟨a, -, v, -, rfl⟩ := h
  exact ⟨v, rfl⟩

theorem enrolInfo_answers {d : Decision} (h : enrolInfo g call = .ok d) :
    ∃ v, d = .answer v := by
  unfold enrolInfo at h
  simp only [bind_eq_ok, pure_eq_ok] at h
  obtain ⟨a, -, ⟨init, policy⟩, -, ⟨id, en⟩, -, rfl⟩ := h
  exact ⟨_, rfl⟩

theorem journalVerify_answers {d : Decision} (h : journalVerify P g = .ok d) :
    ∃ v, d = .answer v := by
  unfold journalVerify at h
  simp only [bind_eq_ok, pure_eq_ok] at h
  obtain ⟨parsed, -, events, -, replayed, -, rfl⟩ := h
  exact ⟨_, rfl⟩

variable (call) in
/-- **Every command** records nothing or one event that may be recorded, and
leaves a signer that keeps the invariant. -/
theorem run_effect (hA : AddressShapes P.addresses) (h : SignerInv g) (cmd : Command) :
    Effect P g call (run P g cmd call) ∧ SignerInv (run P g cmd call).signer := by
  have hids := h.ids
  cases cmd with
  | hello => exact ⟨.nothing rfl rfl rfl, h⟩
  | status => exact ⟨.nothing rfl rfl rfl, h⟩
  | journalHead => exact ⟨.nothing rfl rfl rfl, h⟩
  | journalVerify => exact carryOut_keeps hA h fun _ hd => answer_sound (journalVerify_answers hd)
  | accountCreate => exact carryOut_keeps hA h fun _ hd => accountCreate_sound hd
  | intentCreate => exact carryOut_keeps hA h fun _ hd => intentCreate_sound hids hd
  | intentGet => exact carryOut_keeps hA h fun _ hd => answer_sound (intentGet_answers hd)
  | approve => exact carryOut_keeps hA h fun _ hd => approve_sound hids hd
  | sign => exact carryOut_keeps hA h fun _ hd => sign_sound hids hd
  | intentCancel origin => exact carryOut_keeps hA h fun _ hd => intentCancel_sound hids hd
  | whitelistVeto => exact carryOut_keeps hA h fun _ hd => whitelistVeto_sound hids hd
  | freeze origin => exact carryOut_keeps hA h fun _ hd => freeze_sound hd
  | unfreeze => exact carryOut_keeps hA h fun _ hd => unfreeze_sound hd
  | policyTighten => exact carryOut_keeps hA h fun _ hd => policyTighten_sound hd
  | policySet => exact carryOut_keeps hA h fun _ hd => policySet_sound hd
  | mandateCreate => exact carryOut_keeps hA h fun _ hd => mandateCreate_sound hd
  | mandateGet => exact carryOut_keeps hA h fun _ hd => answer_sound (mandateGet_answers hd)
  | mandateApprove => exact carryOut_keeps hA h fun _ hd => mandateApprove_sound hids hd
  | mandateRevoke origin => exact carryOut_keeps hA h fun _ hd => mandateRevoke_sound hids hd
  | enrolInfo => exact carryOut_keeps hA h fun _ hd => answer_sound (enrolInfo_answers hd)
  | enrolFinish => exact carryOut_keeps hA h fun _ hd => enrolFinish_sound hd
  | enrolStart => exact carryOut_keeps hA h fun _ hd => enrolStart_sound hd
  | keyRevoke => exact carryOut_keeps hA h fun _ hd => keyRevoke_sound hd
  | seedPrepare => exact ⟨seedPrepare_effect, seedPrepare_inv h⟩
  | initCommit => exact initCommit_effect hA h
  | networkCommit => exact networkCommit_effect hA h
  | exportXpubs =>
    exact carryOut_keeps hA h fun _ hd => answer_sound ⟨_, (Except.ok.inj hd).symm⟩
  | rekey => exact rekey_effect hA h

end Effects

end Klick
