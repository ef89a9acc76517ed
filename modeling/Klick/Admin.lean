-- The commands around keys (`signer/service.ts`): how a security key is
-- enrolled, and what only root may do. The seeds are stored before the line
-- of the journal that speaks of them.
import Klick.Sign

open Js

namespace Klick

/-! ## Enrolling a security key -/

def enrolmentOf (s : SignerState) (a : Value) : Except Failure (Text × EnrolmentRecord) := do
  let id ← hex128 (arg a "enrolId") (js "enrolId")
  let en ← orRefuse (s.enrolments.get id) (refuse "enrol_unknown")
  return (id, en)

def enrolInfo (g : Signer) (call : Call) : Except Failure Decision := do
  let a ← argsOf call
  let (init, _) ← requireInit g.state
  let (id, en) ← enrolmentOf g.state a
  return .answer (object [("enrolId", .str id), ("person", .str en.person),
    ("expiresAt", .int en.expiresAt), ("done", .bool en.done), ("rpId", .str init.rpId),
    ("exclude", .arr (g.state.keys.entries.map fun e => .str e.1))])

/-- The texts of an enrolment, as they arrive. -/
def enrolInput (id : Text) (a : Value) : Except Failure EnrolInput := do
  let credId ← b64uStr (arg a "credId") (js "credId") 1400
  let spki ← b64uStr (arg a "spki") (js "spki") 200
  let authenticatorData ← b64uStr (arg a "authenticatorData") (js "authenticatorData") 4096
  let clientDataJSON ← b64uStr (arg a "clientDataJSON") (js "clientDataJSON") 4096
  let mac ← b64uStr (arg a "mac") (js "mac") 64
  return ⟨id, credId, spki, authenticatorData, clientDataJSON, mac⟩

def enrolFinish (P : Platform) (g : Signer) (call : Call) : Except Failure Decision := do
  let a ← argsOf call
  let (init, _) ← requireInit g.state
  let (id, en) ← enrolmentOf g.state a
  check (!en.done) (refuse "enrol_done")
  check (call.clock.now ≤ en.expiresAt) (refuse "enrol_expired")
  let input ← enrolInput id a
  let out ← webauthn (verifyEnrolment P.crypto input ⟨init.rpId, init.origin, en.secret⟩)
  -- the same key never counts twice, nor for someone else
  check (g.state.keys.get out.credId).isNone (refuse "key_exists")
  return .recordThen (.key id en.person out.credId out.spki out.aaguid out.counter) fun g =>
    object [("person", .str en.person), ("credId", .str out.credId),
      ("activeKeys", .int (activeKeysByPerson g.state en.person)),
      ("soloMinKeys", .int (g.state.policy.elim 2 (·.soloMinKeys)))]

/-- `ttlSec`, an hour if it is left out. -/
def ttlArg (v : Value) : Except Failure ℕ :=
  match v with
  | .undefined => .ok 3600
  | v => int v (js "ttlSec") 300 86400

def enrolStart (g : Signer) (call : Call) : Except Failure Decision := do
  let a ← argsOf call
  let (init, _) ← requireInit g.state
  let person ← uuid (arg a "person") (js "person")
  let ttl ← ttlArg (arg a "ttlSec")
  let enrolId := call.randomHex 0 16
  let secret := call.randomHex 1 32
  let expiresAt := plus call.clock.now ttl
  return .recordThen (.enrolStart enrolId person secret expiresAt) fun _ =>
    object [("enrolId", .str enrolId), ("person", .str person), ("expiresAt", .int expiresAt),
      ("url", .str (init.origin ++ js "/enrol.html#e=" ++ enrolId ++ js "&t=" ++ secret ++
        js "&p=" ++ person))]

def keyRevoke (g : Signer) (call : Call) : Except Failure Decision := do
  let a ← argsOf call
  let credId ← b64uStr (arg a "credId") (js "credId") 1400
  let k ← orRefuse (g.state.keys.get credId) (refuse "key_unknown")
  let reply := object [("credId", .str credId), ("active", .bool false)]
  if k.active then return .recordThen (.keyRevoked credId) fun _ => reply
  else return .answer reply

def unfreeze (g : Signer) : Except Failure Decision := do
  let _ ← requireInit g.state
  let reply := object [("frozen", .null)]
  match g.state.frozen with
  | some _ => return .recordThen .unfreeze fun _ => reply
  | none => return .answer reply

/-! ## Showing -/

/-- What the entries of a journal say; an entry that is no event has nothing to fold. -/
def eventsOf (entries : List JournalEntry) : Option (List SignerEvent) :=
  entries.mapM fun e => SignerEvent.ofValue? e.event

def journalVerify (P : Platform) (g : Signer) : Except Failure Decision := do
  let parsed ← (parseJournal P.hash (utf8Decode g.journal.file)).mapError .journal
  let events ← orRefuse (eventsOf parsed.entries) .internal
  let replayed ← internal (replay P.addresses events)
  return .answer (object [
    ("ok", .bool (parsed.head = g.journal.head && parsed.tornBytes = 0)),
    ("seq", .int parsed.seq), ("head", .str parsed.head),
    ("intents", .int replayed.intents.entries.length),
    ("keys", .int replayed.keys.entries.length)])

def exportXpubs (g : Signer) : Decision :=
  .answer (object [("fingerprints", fingerprintsValue g.state.fingerprints),
    ("accounts", .arr (g.state.accounts.values.map fun a => object (accountFields a)))])

/-! ## Preparing seeds -/

/-- Networks that can be set up: none is live, and none has a seed. -/
def checkNew (P : Platform) (g : Signer) : List WalletNetwork → Except Failure Unit
  | [] => .ok ()
  | n :: ns => do
    check (!n.live) (refuse "live_off")
    check (g.keys.fingerprint P.keys n).isNone (refuse "network_exists")
    checkNew P g ns

theorem checkNew_eq_ok {P : Platform} {g : Signer} {ns : List WalletNetwork} {u : Unit} :
    checkNew P g ns = .ok u ↔
      ∀ n ∈ ns, n.live = false ∧ g.keys.fingerprint P.keys n = none := by
  induction ns with
  | nil => exact ⟨fun _ n hn => (nomatch hn), fun _ => rfl⟩
  | cons n ns ih =>
    simp only [checkNew, check_bind, ih, List.mem_cons, forall_eq_or_imp, Bool.not_eq_true',
      Option.isNone_iff_eq_none, and_assoc]

/-- One entropy for each network, from one request of random bytes each. -/
def drawEntropy (H : Sha256) (random : RandomSource) (dice : Option Text) :
    ℕ → List WalletNetwork → OrderedMap WalletNetwork Bytes → OrderedMap WalletNetwork Bytes
  | _, [], m => m
  | k, n :: ns, m =>
    drawEntropy H random dice (k + 1) ns (m.set n (newEntropy H (random.bytes k 32) dice))

/-- `obj(raw).networks`, not empty. -/
def networksArg (a : Value) : Except Failure (List WalletNetwork) :=
  match arg a "networks" with
  | .arr items => do
    check (items ≠ []) (bad (js "networks"))
    items.mapM networkArg
  | _ => .error (bad (js "networks"))

/-- The networks of the entropies are those that were asked for. -/
theorem drawEntropy_networks {H : Sha256} {random : RandomSource} {dice : Option Text} (k : ℕ)
    (ns : List WalletNetwork) (m : OrderedMap WalletNetwork Bytes) (n : WalletNetwork) :
    ((drawEntropy H random dice k ns m).get n).isSome ↔ n ∈ ns ∨ (m.get n).isSome := by
  induction ns generalizing k m with
  | nil => simp [drawEntropy]
  | cons i ns ih =>
    rw [drawEntropy, ih, OrderedMap.isSome_get_set, List.mem_cons]
    tauto

/-- `dice`, if it is there. -/
def diceArg (P : Platform) (v : Value) : Except Failure (Option Text) :=
  match v with
  | .undefined => .ok none
  | v => do
    let dice ← shortText P.printable v (js "dice") 400
    return some dice

/-- What `seed.prepare` remembers. -/
def prepare (P : Platform) (g : Signer) (call : Call) : Except Failure Prepared := do
  let a ← argsOf call
  let networks ← networksArg a
  match h : checkNew P g networks with
  | .error f => .error f
  | .ok _ => do
    let dice ← diceArg P (arg a "dice")
    return {
      token := call.randomHex networks.length 16
      entropy := drawEntropy P.hash call.random dice 0 networks .empty
      expiresAt := plus call.clock.now (15 * 60)
      notLive := by
        intro n hn
        rw [← OrderedMap.isSome_get_iff, drawEntropy_networks] at hn
        rcases hn with hn | hn
        · exact (checkNew_eq_ok.1 h n hn).1
        · cases hn }

def byNetwork (entries : List (WalletNetwork × Bytes)) (text : WalletNetwork → Bytes → Text) :
    Value :=
  .obj (entries.map fun e => (e.1.key, .str (text e.1 e.2)))

/-- The words are shown once, and nothing is stored. -/
def seedPrepare (P : Platform) (g : Signer) (call : Call) : Outcome Value :=
  match prepare P g call with
  | .error f => .refused g f
  | .ok p => .answered { g with prepared := some p } (object [("token", .str p.token),
      ("words", byNetwork p.entropy.entries fun _ e => P.keys.words e),
      ("fingerprints", byNetwork p.entropy.entries P.keys.fingerprint)])

/-! ## Confirming the words -/

/-- `checks.n` -/
def checksField (n : WalletNetwork) : Text := js "checks." ++ n.key

/-- `Object.keys`: integers come first and rise; the others are in their normal order. -/
def positionsOf (fields : List (Text × Value)) : List (Text × Value) :=
  (fields.filter fun f => isUint f.1).insertionSort (fun f g => natOf f.1 ≤ natOf g.1) ++
    fields.filter fun f => !isUint f.1

/-- `Number(pos)`, an integer from 1 to 24. -/
def wordIndex (pos : Text) : Option ℕ :=
  match (textNumber pos).int? with
  | some z => if 1 ≤ z ∧ z ≤ 24 then some z.toNat else none
  | none => none

def checkWord (n : WalletNetwork) (words : List Text) (pos : Text) (v : Value) :
    Except Failure Unit := do
  let idx ← orRefuse (wordIndex pos) (bad (checksField n))
  let word ← coerced v.toText
  check (words[idx - 1]? = some (lower (trim word)))
    (.signer "word_mismatch" (some (n.key ++ ch ':' :: decimal idx)))

def checkWords (n : WalletNetwork) (words : List Text) :
    List (Text × Value) → Except Failure Unit
  | [] => .ok ()
  | f :: fs => do
    checkWord n words f.1 f.2
    checkWords n words fs

/-- Three words or more of each network. -/
def checkSeeds (P : Platform) (checks : Value) :
    List (WalletNetwork × Bytes) → Except Failure Unit
  | [] => .ok ()
  | (n, entropy) :: seeds => do
    let c ← obj (checks.get n.key) (checksField n)
    let positions := positionsOf c.entries
    check (3 ≤ positions.length) (bad (checksField n))
    checkWords n ((P.keys.words entropy).splitOn (ch ' ')) positions
    checkSeeds P checks seeds

/-- The prepared seeds, if they are confirmed. -/
def confirmPrepared (P : Platform) (g : Signer) (call : Call) (a : Value) :
    Except Failure Prepared := do
  let p ← orRefuse g.prepared (refuse "prepare_expired")
  let token ← hex128 (arg a "token") (js "token")
  check (p.token = token) (refuse "prepare_expired")
  check (call.clock.now ≤ p.expiresAt) (refuse "prepare_expired")
  let checks ← obj (arg a "checks") (js "checks")
  checkSeeds P checks p.entropy.entries
  return p

/-! ## Storing seeds -/

/-- Seeds sealed under a key, each with random bytes of its own. -/
def sealSeeds (K : KeyLib) (kek : Bytes) (random : RandomSource) :
    ℕ → List (WalletNetwork × Bytes) → SeedFile → SeedFile
  | _, [], file => file
  | k, (n, entropy) :: seeds, file =>
    sealSeeds K kek random (k + 1) seeds
      ⟨file.seeds.set n (sealSeed K kek n entropy (random.bytes k 12))⟩

/-- `writeSeedFile`, and the key ring that the new file gives. -/
def storeSeeds (P : Platform) (g : Signer) (call : Call) (file : SeedFile) : Outcome Unit :=
  if !call.writesSeeds then .refused g .internal
  else
    let g := { g with seedFile := file }
    match KeyRing.load P.keys file g.kek with
    | .error _ => .refused g .internal
    | .ok keys =>
      let g := { g with keys := keys }
      match keys.selfTest P.keys with
      | .error _ => .refused g .internal
      | .ok _ => .answered g ()

def takePrepared (P : Platform) (g : Signer) (call : Call) (a : Value) : Outcome Prepared :=
  match confirmPrepared P g call a with
  | .error f => .refused g f
  | .ok p =>
    let file := sealSeeds P.keys g.kek call.random 0 p.entropy.entries g.seedFile
    (storeSeeds P { g with prepared := none } call file).andThen fun g _ => .answered g p

/-- The fingerprints of prepared seeds. -/
def Prepared.fingerprints (K : KeyLib) (p : Prepared) : Fingerprints :=
  fun n => (p.entropy.get n).map (K.fingerprint n)

/-! ## Initialising -/

structure InitArgs where
  orgId : Text
  rpId : Text
  origin : Text

/-- `a.origin ?? …` -/
def originArg (a : Value) (rpId : Text) : Value :=
  match arg a "origin" with
  | .undefined => .str (js "https://" ++ rpId)
  | .null => .str (js "https://" ++ rpId)
  | v => v

def initArgs (P : Platform) (g : Signer) (a : Value) : Except Failure InitArgs := do
  check g.state.init.isNone (refuse "already_initialized")
  let orgId ← uuid (arg a "orgId") (js "orgId")
  let rpId ← rpIdOf (arg a "rpId")
  let origin ← originOf (originArg a rpId)
  let hostname ← orRefuse (P.hostname origin) (.thrown .typeError)
  check (hostname = rpId) (bad (js "origin"))
  return ⟨orgId, rpId, origin⟩

def Prepared.policy (p : Prepared) (dev : Bool) : Policy :=
  defaultPolicy (p.entropy.entries.map Prod.fst) dev p.notLive

/-- The event of an initialisation with confirmed seeds. -/
def initBody (P : Platform) (dev : Bool) (i : InitArgs) (p : Prepared) : EventBody :=
  .init i.orgId i.rpId i.origin dev (p.fingerprints P.keys) (p.policy dev)

def initCommit (P : Platform) (g : Signer) (call : Call) : Outcome Value :=
  match (do
    let a ← argsOf call
    let i ← initArgs P g a
    return (a, i)) with
  | .error f => .refused g f
  | .ok (a, i) =>
    (takePrepared P g call a).andThen fun g p =>
      (record P g call 0 (initBody P g.dev i p)).andThen fun g _ =>
        .answered g (object [("orgId", .str i.orgId), ("rpId", .str i.rpId),
          ("origin", .str i.origin), ("fingerprints", fingerprintsValue (p.fingerprints P.keys)),
          ("policy", (p.policy g.dev).raw)])

def recordNetworks (P : Platform) (call : Call) :
    ℕ → List (WalletNetwork × Bytes) → Signer → Outcome Unit
  | _, [], g => .answered g ()
  | k, (n, entropy) :: seeds, g =>
    (record P g call k (.networkAdded n (P.keys.fingerprint n entropy))).andThen fun g _ =>
      recordNetworks P call (k + 1) seeds g

def networkCommit (P : Platform) (g : Signer) (call : Call) : Outcome Value :=
  match (do
    let _ ← requireInit g.state
    argsOf call) with
  | .error f => .refused g f
  | .ok a =>
    (takePrepared P g call a).andThen fun g p =>
      (recordNetworks P call 0 p.entropy.entries g).andThen fun g _ =>
        .answered g (object [("fingerprints", fingerprintsValue (p.fingerprints P.keys))])

/-! ## Changing the key-encryption key -/

/-- The next key: 64 digits of hexadecimal, or 32 bytes. -/
def nextKek (call : Call) : Except Failure Bytes := do
  let raw ← orRefuse call.kekNext (refuse "kek_next_missing")
  let text := trim (utf8Decode raw)
  if text.length = 64 && text.all isHexAny then return ofHex text
  else if raw.length = 32 then return raw
  else .error (bad (js "kek_next"))

/-- The entropies of sealed seeds, in their order. -/
def openAll (K : KeyLib) (kek : Bytes) :
    List (WalletNetwork × SealedSeed) → Except KeyError (List (WalletNetwork × Bytes))
  | [] => .ok []
  | (n, s) :: seeds => do
    let entropy ← openSeed K kek n s
    let rest ← openAll K kek seeds
    return (n, entropy) :: rest

/-- The fingerprints of a file of seeds. -/
def SeedFile.fingerprints (file : SeedFile) : Fingerprints :=
  fun n => (file.seeds.get n).map (·.fingerprint)

def rekey (P : Platform) (g : Signer) (call : Call) : Outcome Value :=
  match (do
    let next ← nextKek call
    let seeds ← internal (openAll P.keys g.kek g.seedFile.seeds.entries)
    return (next, sealSeeds P.keys next call.random 0 seeds .empty)) with
  | .error f => .refused g f
  | .ok (next, file) =>
    if !call.writesSeeds then .refused g .internal
    else
      let g := { g with seedFile := file, kek := next }
      (record P g call 0 (.rekey file.fingerprints)).andThen fun g _ =>
        .answered g (object [("ok", .bool true),
          ("fingerprints", fingerprintsValue g.state.fingerprints)])

end Klick
