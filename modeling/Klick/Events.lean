-- The events of the signer's journal (`signer/events.ts`), as the signer
-- records them and as it reads them back at its start.
import Klick.Journal
import Klick.OrderedMap
import Klick.Policy

open Js

namespace Klick

/-! ## What an event carries -/

/-- Which socket a command came from. -/
inductive By
  | app | admin
deriving DecidableEq, Repr

namespace By

def text : By → Text
  | app => js "app"
  | admin => js "admin"

def ofText? (t : Text) : Option By := [app, admin].find? fun b => b.text = t

@[simp] theorem ofText?_text (b : By) : ofText? b.text = some b := by
  cases b <;> decide

end By

/-- First signature, higher fee, or return to the own address. An array is
no mode but passes the check of the mode, if its text is that of a mode. -/
inductive SignMode
  | first | bump | cancel
  | wrapped (items : List Value) (normal : (Value.arr items).Normal)

namespace SignMode

/-- `SIGN_MODES` -/
def modes : List Text := [js "first", js "bump", js "cancel"]

def toValue : SignMode → Value
  | first => .text "first"
  | bump => .text "bump"
  | cancel => .text "cancel"
  | wrapped items _ => .arr items

def ofValue? : Value → Option SignMode
  | .str t =>
    if t = js "first" then some first
    else if t = js "bump" then some bump
    else if t = js "cancel" then some cancel
    else none
  | .arr items => if h : (Value.arr items).Normal then some (wrapped items h) else none
  | _ => none

def isFirst : SignMode → Bool
  | first => true
  | _ => false

@[simp] theorem ofValue?_toValue (m : SignMode) : ofValue? m.toValue = some m := by
  cases m with
  | first => rfl
  | bump => rfl
  | cancel => rfl
  | wrapped items h => exact dif_pos h

theorem normal_toValue (m : SignMode) : m.toValue.Normal := by
  cases m with
  | wrapped items h => exact h
  | _ => exact Value.normal_str _

end SignMode

/-- `Partial<Record<WalletNetwork, string>>` -/
abbrev Fingerprints := WalletNetwork → Option Text

/-- What a signature spends: coins with the index of the change, or a nonce with its fees. -/
inductive Spent
  | bitcoin (outpoints : List Text) (changeIndex : Option ℕ)
  | ethereum (nonce maxFeePerGas maxPriorityFeePerGas gasLimit : ℕ)
deriving DecidableEq, Repr

structure Signed where
  intentId : Text
  mode : SignMode
  accountId : Text
  network : WalletNetwork
  asset : AssetCode
  amount : ℕ
  txid : Text
  raw : Text
  fee : ℕ
  spent : Spent

namespace Signed

/-- `e.outpoints ?? []` -/
def outpoints (e : Signed) : List Text :=
  match e.spent with
  | .bitcoin outpoints _ => outpoints
  | .ethereum .. => []

def changeIndex (e : Signed) : Option ℕ :=
  match e.spent with
  | .bitcoin _ changeIndex => changeIndex
  | .ethereum .. => none

def nonce (e : Signed) : Option ℕ :=
  match e.spent with
  | .bitcoin .. => none
  | .ethereum nonce .. => some nonce

end Signed

/-- An event without its number and time. -/
inductive EventBody
  | init (orgId rpId origin : Text) (dev : Bool) (fingerprints : Fingerprints) (policy : Policy)
  | networkAdded (network : WalletNetwork) (fingerprint : Text)
  | account (accountId : Text) (network : WalletNetwork) (index : ℕ) (xpub : Text)
  | enrolStart (enrolId person secret : Text) (expiresAt : ℤ)
  | key (enrolId person credId spki aaguid : Text) (counter : ℕ)
  | keyRevoked (credId : Text)
  | policy (policy : Policy) (origin : By)
  | intent (intentId text : Text) (mandateId : Option Text)
  | approval (intentId credId person : Text) (counter : ℕ)
  | cancel (intentId : Text) (origin : By)
  | veto (intentId : Text)
  | freeze (reason : Text) (origin : By)
  | unfreeze
  | signed (e : Signed)
  | rekey (fingerprints : Fingerprints)
  | mandate (mandateId text : Text)
  | mandateApproval (mandateId credId person : Text) (counter : ℕ)
  | mandateRevoked (mandateId : Text) (origin : By)

structure SignerEvent where
  seq : ℕ
  /-- The time by the signer's own clock, in seconds. -/
  time : ℤ
  body : EventBody

/-! ## Events as objects -/

inductive EventType
  | init | networkAdded | account | enrolStart | key | keyRevoked | policy | intent | approval
  | cancel | veto | freeze | unfreeze | signed | rekey | mandate | mandateApproval
  | mandateRevoked
deriving DecidableEq, Repr

namespace EventType

def name : EventType → String
  | init => "init"
  | networkAdded => "network_added"
  | account => "account"
  | enrolStart => "enrol_start"
  | key => "key"
  | keyRevoked => "key_revoked"
  | policy => "policy"
  | intent => "intent"
  | approval => "approval"
  | cancel => "cancel"
  | veto => "veto"
  | freeze => "freeze"
  | unfreeze => "unfreeze"
  | signed => "signed"
  | rekey => "rekey"
  | mandate => "mandate"
  | mandateApproval => "mandate_approval"
  | mandateRevoked => "mandate_revoked"

def all : List EventType :=
  [init, networkAdded, account, enrolStart, key, keyRevoked, policy, intent, approval, cancel,
    veto, freeze, unfreeze, signed, rekey, mandate, mandateApproval, mandateRevoked]

def ofText? (t : Text) : Option EventType := all.find? fun e => js e.name = t

@[simp] theorem ofText?_name (e : EventType) : ofText? (js e.name) = some e := by
  cases e <;> decide +kernel

end EventType

def fingerprintFields (f : Fingerprints) (ns : List WalletNetwork) : List (Text × Value) :=
  ns.filterMap fun n => (f n).map fun t => (n.key, .str t)

def fingerprintsValue (f : Fingerprints) : Value := .obj (fingerprintFields f WalletNetwork.all)

namespace EventBody

def type : EventBody → EventType
  | init .. => .init
  | networkAdded .. => .networkAdded
  | account .. => .account
  | enrolStart .. => .enrolStart
  | key .. => .key
  | keyRevoked .. => .keyRevoked
  | policy .. => .policy
  | intent .. => .intent
  | approval .. => .approval
  | cancel .. => .cancel
  | veto .. => .veto
  | freeze .. => .freeze
  | unfreeze => .unfreeze
  | signed .. => .signed
  | rekey .. => .rekey
  | mandate .. => .mandate
  | mandateApproval .. => .mandateApproval
  | mandateRevoked .. => .mandateRevoked

/-- The fields that only one chain has. -/
def spentFields : Spent → List (String × Value)
  | .bitcoin outpoints changeIndex => [
      ("outpoints", .arr (outpoints.map .str)),
      ("changeIndex", match changeIndex with | some i => .int i | none => .null)]
  | .ethereum nonce maxFeePerGas maxPriorityFeePerGas gasLimit => [
      ("nonce", .str (decimal nonce)), ("maxFeePerGas", .str (decimal maxFeePerGas)),
      ("maxPriorityFeePerGas", .str (decimal maxPriorityFeePerGas)),
      ("gasLimit", .str (decimal gasLimit))]

/-- The fields between the type and the time. -/
def data : EventBody → List (String × Value)
  | init orgId rpId origin dev fingerprints p => [
      ("orgId", .str orgId), ("rpId", .str rpId), ("origin", .str origin), ("dev", .bool dev),
      ("fingerprints", fingerprintsValue fingerprints), ("policy", p.raw)]
  | networkAdded network fingerprint => [
      ("network", .str network.key), ("fingerprint", .str fingerprint)]
  | account accountId network index xpub => [
      ("accountId", .str accountId), ("network", .str network.key), ("index", .int index),
      ("xpub", .str xpub)]
  | enrolStart enrolId person secret expiresAt => [
      ("enrolId", .str enrolId), ("person", .str person), ("secret", .str secret),
      ("expiresAt", .int expiresAt)]
  | key enrolId person credId spki aaguid counter => [
      ("enrolId", .str enrolId), ("person", .str person), ("credId", .str credId),
      ("spki", .str spki), ("aaguid", .str aaguid), ("counter", .int counter)]
  | keyRevoked credId => [("credId", .str credId)]
  | policy p origin => [("policy", p.raw), ("by", .str origin.text)]
  | intent intentId text mandateId => [("intentId", .str intentId), ("text", .str text)] ++
      (match mandateId with | some m => [("mandateId", .str m)] | none => [])
  | approval intentId credId person counter => [
      ("intentId", .str intentId), ("credId", .str credId), ("person", .str person),
      ("counter", .int counter)]
  | cancel intentId origin => [("intentId", .str intentId), ("by", .str origin.text)]
  | veto intentId => [("intentId", .str intentId)]
  | freeze reason origin => [("reason", .str reason), ("by", .str origin.text)]
  | unfreeze => []
  | signed e => [
      ("intentId", .str e.intentId), ("mode", e.mode.toValue), ("accountId", .str e.accountId),
      ("network", .str e.network.key), ("asset", .str e.asset.text),
      ("amount", .str (decimal e.amount)), ("txid", .str e.txid), ("raw", .str e.raw),
      ("fee", .str (decimal e.fee))] ++ spentFields e.spent
  | rekey fingerprints => [("fingerprints", fingerprintsValue fingerprints)]
  | mandate mandateId text => [("mandateId", .str mandateId), ("text", .str text)]
  | mandateApproval mandateId credId person counter => [
      ("mandateId", .str mandateId), ("credId", .str credId), ("person", .str person),
      ("counter", .int counter)]
  | mandateRevoked mandateId origin => [("mandateId", .str mandateId), ("by", .str origin.text)]

/-- `{ type, ...draft, at }` -/
def fields (b : EventBody) (time : ℤ) : List (String × Value) :=
  ("type", .str (js b.type.name)) :: (b.data ++ [("at", .int time)])

end EventBody

/-! ## Objects as events -/

def Fingerprints.ofValue? : Value → Option Fingerprints
  | .obj fields => some fun n =>
    match lookup n.key fields with
    | some (.str t) => some t
    | _ => none
  | _ => none

/-- A property that must have a type to be read. -/
structure Reader where
  get : String → Value

namespace Reader

def text (r : Reader) (k : String) : Option Text :=
  match r.get k with
  | .str t => some t
  | _ => none

def int (r : Reader) (k : String) : Option ℤ := (r.get k).int?

def nat (r : Reader) (k : String) : Option ℕ := (r.get k).int?.map Int.toNat

def bool (r : Reader) (k : String) : Option Bool :=
  match r.get k with
  | .bool b => some b
  | _ => none

/-- An amount in decimal notation. -/
def amount (r : Reader) (k : String) : Option ℕ := (r.text k).map natOf

def network (r : Reader) (k : String) : Option WalletNetwork := (r.text k).bind WalletNetwork.ofKey?

def origin (r : Reader) (k : String) : Option By := (r.text k).bind By.ofText?

def policy (r : Reader) (k : String) : Option Policy := Policy.ofValue? (r.get k)

def fingerprints (r : Reader) (k : String) : Option Fingerprints := Fingerprints.ofValue? (r.get k)

def texts (r : Reader) (k : String) : Option (List Text) :=
  match r.get k with
  | .arr items => items.mapM fun v => match v with
    | .str t => some t
    | _ => none
  | _ => none

def spent (r : Reader) : Option Spent :=
  match r.get "nonce" with
  | .undefined => do
    let outpoints ← r.texts "outpoints"
    let changeIndex ← match r.get "changeIndex" with
      | .null => some none
      | .num i => i.int?.map fun z => some z.toNat
      | _ => none
    return .bitcoin outpoints changeIndex
  | _ => do
    return .ethereum (← r.amount "nonce") (← r.amount "maxFeePerGas")
      (← r.amount "maxPriorityFeePerGas") (← r.amount "gasLimit")

def signed (r : Reader) : Option Signed := do
  return {
    intentId := ← r.text "intentId"
    mode := ← SignMode.ofValue? (r.get "mode")
    accountId := ← r.text "accountId"
    network := ← r.network "network"
    asset := ← (r.text "asset").bind AssetCode.ofText?
    amount := ← r.amount "amount"
    txid := ← r.text "txid"
    raw := ← r.text "raw"
    fee := ← r.amount "fee"
    spent := ← r.spent }

def body (r : Reader) : EventType → Option EventBody
  | .init => do
    return .init (← r.text "orgId") (← r.text "rpId") (← r.text "origin") (← r.bool "dev")
      (← r.fingerprints "fingerprints") (← r.policy "policy")
  | .networkAdded => do return .networkAdded (← r.network "network") (← r.text "fingerprint")
  | .account => do
    return .account (← r.text "accountId") (← r.network "network") (← r.nat "index")
      (← r.text "xpub")
  | .enrolStart => do
    return .enrolStart (← r.text "enrolId") (← r.text "person") (← r.text "secret")
      (← r.int "expiresAt")
  | .key => do
    return .key (← r.text "enrolId") (← r.text "person") (← r.text "credId") (← r.text "spki")
      (← r.text "aaguid") (← r.nat "counter")
  | .keyRevoked => do return .keyRevoked (← r.text "credId")
  | .policy => do return .policy (← r.policy "policy") (← r.origin "by")
  | .intent => do
    let mandateId ← match r.get "mandateId" with
      | .undefined => some none
      | _ => (r.text "mandateId").map some
    return .intent (← r.text "intentId") (← r.text "text") mandateId
  | .approval => do
    return .approval (← r.text "intentId") (← r.text "credId") (← r.text "person")
      (← r.nat "counter")
  | .cancel => do return .cancel (← r.text "intentId") (← r.origin "by")
  | .veto => do return .veto (← r.text "intentId")
  | .freeze => do return .freeze (← r.text "reason") (← r.origin "by")
  | .unfreeze => some .unfreeze
  | .signed => do return .signed (← r.signed)
  | .rekey => do return .rekey (← r.fingerprints "fingerprints")
  | .mandate => do return .mandate (← r.text "mandateId") (← r.text "text")
  | .mandateApproval => do
    return .mandateApproval (← r.text "mandateId") (← r.text "credId") (← r.text "person")
      (← r.nat "counter")
  | .mandateRevoked => do return .mandateRevoked (← r.text "mandateId") (← r.origin "by")

end Reader

/-- The event of an object that was read from the journal. -/
def SignerEvent.ofValue? (v : Value) : Option SignerEvent := do
  let r : Reader := ⟨fun k => v.get (js k)⟩
  let type ← (r.text "type").bind EventType.ofText?
  return ⟨← r.nat "seq", ← r.int "at", ← r.body type⟩

/-! ## An event is read as it was recorded -/

theorem lookup_fingerprintFields (f : Fingerprints) {ns : List WalletNetwork} (n : WalletNetwork)
    (hd : ns.Nodup) :
    lookup n.key (fingerprintFields f ns) = if n ∈ ns then (f n).map .str else none := by
  induction ns with
  | nil => rfl
  | cons m ms ih =>
    obtain ⟨hm, hms⟩ := List.nodup_cons.mp hd
    have ih := ih hms
    unfold fingerprintFields at ih ⊢
    by_cases hmn : m = n
    · subst hmn
      rw [if_neg hm] at ih
      cases hf : f m with
      | none => simpa [hf] using ih
      | some t => simp [hf, lookup]
    · have hkey : m.key ≠ n.key := fun h => hmn (WalletNetwork.key_injective h)
      cases hf : f m with
      | none => simpa [hf, Ne.symm hmn] using ih
      | some t => simpa [hf, lookup, hkey, Ne.symm hmn] using ih

theorem keys_fingerprintFields (f : Fingerprints) (ns : List WalletNetwork) :
    (keys (fingerprintFields f ns)).Sublist (ns.map WalletNetwork.key) := by
  induction ns with
  | nil => exact .slnil
  | cons m ms ih =>
    cases hf : f m with
    | none => simpa [fingerprintFields, hf] using ih.cons m.key
    | some t => simpa [fingerprintFields, hf, keys] using ih.cons_cons m.key

theorem distinct_fingerprintsValue (f : Fingerprints) : (fingerprintsValue f).Distinct := by
  refine ⟨(keys_fingerprintFields f _).nodup (by decide), ?_⟩
  rw [distinctFields_iff]
  intro e he
  obtain ⟨n, -, hn⟩ := List.mem_filterMap.mp he
  obtain ⟨t, -, rfl⟩ := Option.map_eq_some_iff.mp hn
  exact trivial

theorem fingerprints_ofValue? (f : Fingerprints) :
    Fingerprints.ofValue? (canon (fingerprintsValue f)) = some f := by
  have hd := (distinct_fingerprintsValue f).1
  have hget : ∀ n : WalletNetwork, lookup n.key (sortByKey (canonFields (fingerprintFields f
      WalletNetwork.all))) = (f n).map .str := by
    intro n
    have hn : NormalFields (fingerprintFields f WalletNetwork.all) := by
      intro e he
      obtain ⟨m, -, hm⟩ := List.mem_filterMap.mp he
      obtain ⟨t, -, rfl⟩ := Option.map_eq_some_iff.mp hm
      exact ⟨by simp, rfl⟩
    rw [canonFields_of_normal hn, lookup_perm (sortByKey_perm _) (keys_sortByKey_nodup hd),
      lookup_fingerprintFields f n (by decide), if_pos n.mem_all]
  simp only [Fingerprints.ofValue?, fingerprintsValue, canon, hget]
  congr 1
  funext n
  cases f n <;> rfl

theorem canon_int (z : ℤ) : canon (.int z) = .int z := rfl

theorem canon_str (t : Text) : canon (.str t) = .str t := rfl

theorem int?_natCast (n : ℕ) : (Number.fin n).int? = some n := Number.int?_intCast n

namespace EventBody

/-- The fields of the whole object, with the number. -/
def allFields (b : EventBody) (time : ℤ) (n : ℕ) : List (String × Value) :=
  b.fields time ++ [("seq", .int n)]

/-- The names of the fields: ASCII, and none twice. -/
theorem names (b : EventBody) (time : ℤ) (n : ℕ) :
    ((b.allFields time n).map Prod.fst).all isAsciiName = true ∧
      ((b.allFields time n).map Prod.fst).Nodup := by
  cases b with
  | intent _ _ m =>
    cases m <;>
    · simp only [allFields, fields, data, type, EventType.name, List.map_cons, List.map_nil,
        List.cons_append, List.nil_append]
      decide +kernel
  | signed e =>
    obtain ⟨i, m, a, n, c, v, t, r, f, spent⟩ := e
    cases spent <;>
    · simp only [allFields, fields, data, type, EventType.name, spentFields, List.map_cons,
        List.map_nil, List.cons_append, List.nil_append]
      decide +kernel
  | _ =>
    simp only [allFields, fields, data, type, EventType.name, List.map_cons, List.map_nil,
      List.cons_append, List.nil_append]
    decide +kernel

theorem names_ascii (b : EventBody) (time : ℤ) (n : ℕ) :
    ∀ f ∈ b.allFields time n, isAsciiName f.1 = true := by
  intro f hf
  exact List.all_eq_true.mp (b.names time n).1 _ (List.mem_map_of_mem hf)

/-- No field is recorded twice. -/
theorem keys_nodup (b : EventBody) (time : ℤ) (n : ℕ) :
    (keys (named (b.allFields time n))).Nodup := by
  rw [keys_named]
  apply (b.names time n).2.map_on
  intro s hs t ht h
  have hascii := List.all_eq_true.mp (b.names time n).1
  exact js_injective (hascii s hs) (hascii t ht) h

/-- The values of the fields are distinct objects. -/
theorem data_distinct (b : EventBody) : ∀ f ∈ b.data, f.2.Distinct := by
  cases b with
  | init _ _ _ _ fingerprints p =>
    simp [data, Value.Distinct, distinct_fingerprintsValue, p.normal.distinct]
  | policy p _ => simp [data, Value.Distinct, p.normal.distinct]
  | rekey fingerprints => simp [data, distinct_fingerprintsValue]
  | intent _ _ m => cases m <;> simp [data, Value.Distinct]
  | signed e =>
    obtain ⟨i, m, a, n, c, v, t, r, f, spent⟩ := e
    have hm := m.normal_toValue.distinct
    cases spent with
    | bitcoin outpoints changeIndex =>
      have ho : (Value.arr (outpoints.map .str)).Distinct := by
        change distinctItems _
        rw [distinctItems_iff]
        intro v hv
        obtain ⟨t, -, rfl⟩ := List.mem_map.mp hv
        exact trivial
      cases changeIndex <;> simp [data, spentFields, Value.Distinct, Value.int, hm] <;> exact ho
    | ethereum => simp [data, spentFields, Value.Distinct, hm]
  | _ => simp [data, Value.Distinct, Value.int]

/-- The draft that `record` appends. -/
def draft (b : EventBody) (time : ℤ) : Draft where
  fields := named (b.fields time)
  distinct := by
    have hk := b.keys_nodup time 0
    simp only [allFields, named, keys, List.map_append] at hk
    refine ⟨List.Nodup.of_append_left hk, ?_⟩
    rw [distinctFields_iff]
    intro f hf
    obtain ⟨g, hg, rfl⟩ := List.mem_map.mp hf
    simp only [fields, List.mem_cons, List.mem_append, List.not_mem_nil, or_false] at hg
    rcases hg with rfl | hg | rfl
    · exact trivial
    · exact b.data_distinct g hg
    · exact trivial

/-- The object that is written for an event. -/
theorem event_draft (b : EventBody) (time : ℤ) (n : ℕ) :
    (b.draft time).event n = .obj (named (b.allFields time n)) := by
  have hseq : js "seq" ∉ keys (named (b.fields time)) := by
    have hk := b.keys_nodup time n
    simp only [allFields, named, keys, List.map_append, List.nodup_append] at hk
    intro hm
    exact hk.2.2 _ hm (js "seq") (by simp) rfl
  unfold Draft.event draft
  rw [setField_new hseq]
  simp [named, allFields, Value.int]

/-- The properties of an event that was written and read. -/
def reader (b : EventBody) (time : ℤ) (n : ℕ) : Reader :=
  ⟨fun k => (canon ((b.draft time).event n)).get (js k)⟩

theorem get_reader (b : EventBody) (time : ℤ) (n : ℕ) {k : String} (hk : isAsciiName k = true) :
    (b.reader time n).get k = canon (namedGet (b.allFields time n) k) := by
  unfold reader
  simp only
  rw [event_draft, canon_get (b.keys_nodup time n), get_named (b.names_ascii time n) hk]

theorem mapM_texts (ts : List Text) :
    (canonItems (ts.map .str)).mapM (fun v => match v with
      | .str t => some t
      | _ => none) = some ts := by
  induction ts with
  | nil => rfl
  | cons t ts ih =>
    simp only [List.map_cons, canonItems, canon, List.mapM_cons, ih]
    rfl

theorem body_reader (b : EventBody) (time : ℤ) (n : ℕ) :
    (b.reader time n).body b.type = some b := by
  cases b with
  | init _ _ _ _ fingerprints p =>
    simp (disch := decide) [Reader.body, Reader.text, Reader.bool, Reader.fingerprints,
      Reader.policy, get_reader, namedGet, allFields, fields, data, type, EventType.name, canon,
      fingerprints_ofValue?, p.normal.canon_eq]
  | policy p origin =>
    simp (disch := decide) [Reader.body, Reader.text, Reader.origin, Reader.policy, get_reader,
      namedGet, allFields, fields, data, type, EventType.name, canon, p.normal.canon_eq]
  | intent _ _ m =>
    cases m <;>
    simp (disch := decide) [Reader.body, Reader.text, get_reader, namedGet, allFields, fields,
      data, type, EventType.name, canon]
  | signed e =>
    obtain ⟨i, m, a, net, c, v, t, r, f, spent⟩ := e
    cases spent with
    | bitcoin outpoints changeIndex =>
      cases changeIndex <;>
      simp (disch := decide) [Reader.body, Reader.signed, Reader.spent, Reader.texts, Reader.text,
        Reader.amount, Reader.network, get_reader, namedGet, allFields, fields, data, spentFields,
        type, EventType.name, canon, Value.int, int?_natCast, natOf_decimal,
        m.normal_toValue.canon_eq, mapM_texts]
    | ethereum =>
      simp (disch := decide) [Reader.body, Reader.signed, Reader.spent, Reader.text,
        Reader.amount, Reader.network, get_reader, namedGet, allFields, fields, data, spentFields,
        type, EventType.name, canon, natOf_decimal, m.normal_toValue.canon_eq]
  | rekey fingerprints =>
    simp (disch := decide) [Reader.body, Reader.fingerprints, get_reader, namedGet, allFields,
      fields, data, type, EventType.name, fingerprints_ofValue?]
  | _ =>
    simp (disch := decide) [Reader.body, Reader.text, Reader.nat, Reader.int, Reader.network,
      Reader.origin, get_reader, namedGet, allFields, fields, data, type, EventType.name,
      canon_str, canon_int]

end EventBody

/-- **An event is read as it was recorded**, in whatever order its fields are written. -/
theorem ofValue?_event (b : EventBody) (time : ℤ) (n : ℕ) :
    SignerEvent.ofValue? (canon ((b.draft time).event n)) = some ⟨n, time, b⟩ := by
  have hget : ∀ k v, isAsciiName k = true → (k, v) ∈ b.allFields time n →
      (b.reader time n).get k = canon v := by
    intro k v hk hm
    rw [b.get_reader time n hk, namedGet_of_mem (b.names time n).2 hm]
  have htype : (b.reader time n).text "type" = some (js b.type.name) := by
    rw [Reader.text, hget "type" (.str (js b.type.name)) (by decide) List.mem_cons_self]
    rfl
  have hseq : (b.reader time n).nat "seq" = some n := by
    rw [Reader.nat, hget "seq" (.int n) (by decide) (by simp [EventBody.allFields]), canon_int]
    simp
  have htime : (b.reader time n).int "at" = some time := by
    rw [Reader.int, hget "at" (.int time) (by decide)
      (by simp [EventBody.allFields, EventBody.fields]), canon_int]
    simp
  have hbody := b.body_reader time n
  unfold EventBody.reader at htype hseq htime hbody
  simp [SignerEvent.ofValue?, htype, hseq, htime, hbody]

end Klick
