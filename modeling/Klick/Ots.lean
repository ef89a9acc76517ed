-- The OpenTimestamps format (`lib/ledger/ots.ts`): a tree of operations on a
-- message with attestations at its nodes, how it is written and read, and how
-- the answers of several calendars are merged into one file.
import Klick.Journal

open Js

namespace Klick.Ots

/-! ## Timestamps -/

/-- The hash functions, as far as the lengths of their digests go. -/
structure Digests where
  sha256 : Sha256
  sha1 : Bytes → Bytes
  ripemd160 : Bytes → Bytes
  sha1_size : ∀ bs, (sha1 bs).length = 20
  ripemd160_size : ∀ bs, (ripemd160 bs).length = 20

inductive OtsOp
  | append (arg : Bytes)
  | prepend (arg : Bytes)
  | sha256
  | sha1
  | ripemd160
  | reverse
  | hexlify
deriving DecidableEq, Repr

/-- The tag of an unknown attestation is its eight bytes. -/
inductive OtsAttestation
  | pending (uri : Text)
  | bitcoin (height : ℕ)
  | unknown (tag payload : Bytes)
deriving DecidableEq, Repr

inductive OtsTimestamp
  | mk (msg : Bytes) (attestations : List OtsAttestation) (ops : List (OtsOp × OtsTimestamp))

/-- `OTS_MAGIC` -/
def otsMagic : Bytes :=
  [0x00, 0x4f, 0x70, 0x65, 0x6e, 0x54, 0x69, 0x6d, 0x65, 0x73, 0x74, 0x61, 0x6d,
    0x70, 0x73, 0x00, 0x00, 0x50, 0x72, 0x6f, 0x6f, 0x66, 0x00, 0xbf, 0x89, 0xe2,
    0xe8, 0x84, 0xe8, 0x92, 0x94]

/-- `OTS_VERSION` -/
def otsVersion : ℕ := 1

/-- `TAG_PENDING` -/
def tagPending : Bytes := [0x83, 0xdf, 0xe3, 0x0d, 0x2e, 0xf9, 0x0c, 0x8e]

/-- `TAG_BITCOIN` -/
def tagBitcoin : Bytes := [0x05, 0x88, 0x96, 0x0d, 0x73, 0xd7, 0x19, 0x01]

/-- `MAX_URI` -/
def maxUri : ℕ := 1000
/-- `MAX_ARG` -/
def maxArg : ℕ := 4096
/-- `MAX_DEPTH` -/
def maxDepth : ℕ := 256
/-- `MAX_MSG` -/
def maxMsg : ℕ := 4096
/-- `MAX_NODES` -/
def maxNodes : ℕ := 1000
/-- The bound that `readAttestation` sets. -/
def maxPayload : ℕ := 8192

/-- `OP_TAG` -/
def opTag : OtsOp → UInt8
  | .append _ => 0xf0
  | .prepend _ => 0xf1
  | .reverse => 0xf2
  | .hexlify => 0xf3
  | .sha1 => 0x02
  | .ripemd160 => 0x03
  | .sha256 => 0x08

namespace OtsTimestamp

def msg : OtsTimestamp → Bytes
  | mk m _ _ => m

def attestations : OtsTimestamp → List OtsAttestation
  | mk _ as _ => as

def ops : OtsTimestamp → List (OtsOp × OtsTimestamp)
  | mk _ _ os => os

end OtsTimestamp

def newTimestamp (msg : Bytes) : OtsTimestamp := .mk msg [] []

section Digests

variable (D : Digests)

def applyOpRaw (op : OtsOp) (msg : Bytes) : Bytes :=
  match op with
  | .append arg => msg ++ arg
  | .prepend arg => arg ++ msg
  | .sha256 => D.sha256.digest msg
  | .sha1 => D.sha1 msg
  | .ripemd160 => D.ripemd160 msg
  | .reverse => msg.reverse
  | .hexlify => utf8 (toHex msg)

def applyOp (op : OtsOp) (msg : Bytes) : Except String Bytes :=
  if maxMsg < (applyOpRaw D op msg).length then .error "ots_msg_too_long"
  else .ok (applyOpRaw D op msg)

end Digests

/-! ## Writing -/

/-- The digits of `Writer.varuint`: seven bits each, the least first. -/
def varuintDigits : ℕ → ℕ → Bytes
  | 0, n => [byte (n % 128)]
  | k + 1, n => if n < 128 then [byte n] else byte (n % 128 + 128) :: varuintDigits k (n / 128)

/-- `Writer.varuint` of the length of an array. -/
def varuintBytes (n : ℕ) : Bytes := varuintDigits n n

/-- `Writer.varuint` -/
def writeVaruint (n : ℕ) : Except String Bytes :=
  if maxSafe < n then .error "ots_varuint" else .ok (varuintBytes n)

/-- `Writer.varbytes` -/
def varbytes (bs : Bytes) : Bytes := varuintBytes bs.length ++ bs

def attestationBytes : OtsAttestation → Except String Bytes
  | .pending uri => .ok (tagPending ++ varbytes (varbytes (utf8 uri)))
  | .bitcoin height => do
    let payload ← writeVaruint height
    return tagBitcoin ++ varbytes payload
  | .unknown tag payload => .ok (tag ++ varbytes payload)

def opBytes (op : OtsOp) : Bytes :=
  opTag op :: match op with
    | .append arg => varbytes arg
    | .prepend arg => varbytes arg
    | _ => []

def opKey (op : OtsOp) : Text := toHex (opBytes op)

/-- Each item but the last stands behind 0xff. -/
def frame : List Bytes → Bytes
  | [] => []
  | [c] => c
  | c :: d :: cs => 0xff :: c ++ frame (d :: cs)

/-- Sorted by what is written of them, in hexadecimal. -/
def sortBytes (bs : List Bytes) : List Bytes :=
  (sortByKey (bs.map fun b => (toHex b, b))).map (·.2)

mutual
def writeTimestamp : OtsTimestamp → Except String Bytes
  | .mk _ attestations ops => do
    let atts ← attestations.mapM attestationBytes
    let written ← writeOps ops
    if atts = [] ∧ written = [] then .error "ots_empty" else
    return frame ((sortBytes atts).map (0x00 :: ·) ++ (sortByKey written).map (·.2))
/-- The branches with their keys. -/
def writeOps : List (OtsOp × OtsTimestamp) → Except String (List (Text × Bytes))
  | [] => .ok []
  | (op, next) :: ops => do
    let b ← writeTimestamp next
    let bs ← writeOps ops
    return (opKey op, opBytes op ++ b) :: bs
end

def serializeOtsFile (ts : OtsTimestamp) : Except String Bytes :=
  if ts.msg.length ≠ 32 then .error "ots_digest" else do
    let body ← writeTimestamp ts
    return otsMagic ++ varuintBytes otsVersion ++ opTag .sha256 :: ts.msg ++ body

/-! ## Reading -/

/-- What is left of the buffer, and the items counted. -/
structure Reader where
  rest : Bytes
  nodes : ℕ

namespace Reader

def node (r : Reader) : Except String Reader :=
  if maxNodes < r.nodes + 1 then .error "ots_too_many_nodes"
  else .ok { r with nodes := r.nodes + 1 }

def byte (r : Reader) : Except String (UInt8 × Reader) :=
  match r.rest with
  | [] => .error "ots_truncated"
  | b :: bs => .ok (b, { r with rest := bs })

def bytes (n : ℕ) (r : Reader) : Except String (Bytes × Reader) :=
  if r.rest.length < n then .error "ots_truncated"
  else .ok (r.rest.take n, { r with rest := r.rest.drop n })

/-- A sum of two numbers, rounded beyond 2⁵³. -/
def sum (a b : ℕ) : ℕ := (plus a b).toNat

/-- The bytes of a varuint that may still come, the value so far and the weight of the next. -/
def varuintFrom : ℕ → ℕ → ℕ → Reader → Except String (ℕ × Reader)
  | 0, _, _, _ => .error "ots_varuint"
  | k + 1, value, shift, r => do
    let (b, r) ← r.byte
    let value := sum value (b.toNat % 128 * shift)
    if b.toNat < 128 then return (value, r) else varuintFrom k value (shift * 128) r

def varuint (r : Reader) : Except String (ℕ × Reader) := varuintFrom 9 0 1 r

def varbytes (max : ℕ) (r : Reader) : Except String (Bytes × Reader) := do
  let (n, r) ← r.varuint
  if max < n then .error "ots_too_long" else r.bytes n

def done (r : Reader) : Bool := r.rest.isEmpty

end Reader

/-- A value read from the whole of a payload. -/
def wholePayload {α : Type} (payload : Bytes) (read : Reader → Except String (α × Reader)) :
    Except String α := do
  let (a, p) ← read ⟨payload, 0⟩
  if p.done then return a else .error "ots_payload"

def readAttestation (r : Reader) : Except String (OtsAttestation × Reader) := do
  let (tag, r) ← r.bytes 8
  let (payload, r) ← r.varbytes maxPayload
  if tag = tagPending then
    let uri ← wholePayload payload (Reader.varbytes maxUri)
    return (.pending (utf8Decode uri), r)
  else if tag = tagBitcoin then
    let height ← wholePayload payload Reader.varuint
    return (.bitcoin height, r)
  else return (.unknown tag payload, r)

/-- `TAG_OP` turned into a reader. The message of an unknown tag ends in the tag. -/
def readOp (tag : UInt8) (r : Reader) : Except String (OtsOp × Reader) :=
  if tag = 0xf0 then do
    let (arg, r) ← r.varbytes maxArg
    return (.append arg, r)
  else if tag = 0xf1 then do
    let (arg, r) ← r.varbytes maxArg
    return (.prepend arg, r)
  else if tag = 0xf2 then .ok (.reverse, r)
  else if tag = 0xf3 then .ok (.hexlify, r)
  else if tag = 0x02 then .ok (.sha1, r)
  else if tag = 0x03 then .ok (.ripemd160, r)
  else if tag = 0x08 then .ok (.sha256, r)
  else .error "ots_op_"

/-- What stands at a node: an attestation, or an operation and what follows it. -/
inductive OtsItem
  | attestation (a : OtsAttestation)
  | op (op : OtsOp) (next : OtsTimestamp)

def OtsTimestamp.push : OtsTimestamp → OtsItem → OtsTimestamp
  | .mk m as os, .attestation a => .mk m (as ++ [a]) os
  | .mk m as os, .op op next => .mk m as (os ++ [(op, next)])

/-- What reading gives when its bound on the recursion is too low, which never happens. -/
def outOfFuel : String := ""

section Digests

variable (D : Digests)

mutual
def readTimestamp : ℕ → Bytes → ℕ → Reader → Except String (OtsTimestamp × Reader)
  | 0, _, _, _ => .error outOfFuel
  | fuel + 1, msg, depth, r =>
    if maxDepth < depth then .error "ots_depth" else readItems fuel depth (newTimestamp msg) r
/-- The items of a node from the next one on. -/
def readItems : ℕ → ℕ → OtsTimestamp → Reader → Except String (OtsTimestamp × Reader)
  | 0, _, _, _ => .error outOfFuel
  | fuel + 1, depth, ts, r => do
    let (tag, r) ← r.byte
    if tag = 0xff then
      let (tag, r) ← r.byte
      let (i, r) ← readItem fuel ts.msg depth tag r
      readItems fuel depth (ts.push i) r
    else
      let (i, r) ← readItem fuel ts.msg depth tag r
      return (ts.push i, r)
def readItem : ℕ → Bytes → ℕ → UInt8 → Reader → Except String (OtsItem × Reader)
  | 0, _, _, _, _ => .error outOfFuel
  | fuel + 1, msg, depth, tag, r => do
    let r ← r.node
    if tag = 0x00 then
      let (a, r) ← readAttestation r
      return (.attestation a, r)
    else
      let (op, r) ← readOp tag r
      let msg ← applyOp D op msg
      let (next, r) ← readTimestamp fuel msg (depth + 1) r
      return (.op op next, r)
end

/-- Every item takes a byte, and three turns of the recursion. -/
def fuelFor (bs : Bytes) : ℕ := 3 * bs.length + 3

def parseTimestamp (bs msg : Bytes) : Except String OtsTimestamp := do
  let (ts, r) ← readTimestamp D (fuelFor bs) msg 0 ⟨bs, 0⟩
  if r.done then return ts else .error "ots_trailing"

def parseOtsFile (bs : Bytes) : Except String OtsTimestamp := do
  let (magic, r) ← Reader.bytes otsMagic.length ⟨bs, 0⟩
  if magic ≠ otsMagic then .error "ots_magic" else
  let (version, r) ← r.varuint
  if version ≠ otsVersion then .error "ots_version" else
  let (hash, r) ← r.byte
  if hash ≠ opTag .sha256 then .error "ots_file_hash" else
  let (digest, r) ← r.bytes 32
  let (ts, r) ← readTimestamp D (fuelFor bs) digest 0 r
  if r.done then return ts else .error "ots_trailing"

end Digests

/-! ## Merging and looking up -/

/-- The last branch of an operation, and what stands before and behind it. -/
def lastBranch (key : Text) : List (OtsOp × OtsTimestamp) →
    Option (List (OtsOp × OtsTimestamp) × (OtsOp × OtsTimestamp) × List (OtsOp × OtsTimestamp))
  | [] => none
  | o :: os =>
    match lastBranch key os with
    | some (before, hit, after) => some (o :: before, hit, after)
    | none => if opKey o.1 = key then some ([], o, os) else none

/-- The attestations that are added, up to one that cannot be written. -/
def addAttestations (present : List Bytes) : List OtsAttestation → List OtsAttestation × Option String
  | [] => ([], none)
  | a :: as =>
    match attestationBytes a with
    | .error e => ([], some e)
    | .ok b =>
      let (added, e) := addAttestations present as
      (if b ∈ present then added else a :: added, e)

mutual
/-- What the timestamp is after the merge, and what the merge throws. A merge that throws leaves
what it has merged before. -/
def mergeTimestamp (ts : OtsTimestamp) : OtsTimestamp → OtsTimestamp × Option String
  | .mk msg attestations ops =>
    if ts.msg ≠ msg then (ts, some "ots_merge_msg") else
    match ts.attestations.mapM attestationBytes with
    | .error e => (ts, some e)
    | .ok present =>
      match addAttestations present attestations with
      | (added, some e) => (.mk ts.msg (ts.attestations ++ added) ts.ops, some e)
      | (added, none) =>
        let (merged, e) := mergeOps ts.ops ops
        (.mk ts.msg (ts.attestations ++ added) merged, e)
def mergeOps (into : List (OtsOp × OtsTimestamp)) :
    List (OtsOp × OtsTimestamp) → List (OtsOp × OtsTimestamp) × Option String
  | [] => (into, none)
  | (op, next) :: ops =>
    match lastBranch (opKey op) into with
    | none => mergeOps (into ++ [(op, next)]) ops
    | some (before, hit, after) =>
      match mergeTimestamp hit.2 next with
      | (merged, some e) => (before ++ (hit.1, merged) :: after, some e)
      | (merged, none) => mergeOps (before ++ (hit.1, merged) :: after) ops
end

structure AttestationAt where
  msg : Bytes
  attestation : OtsAttestation
deriving DecidableEq

mutual
/-- `attestations` -/
def attestationsAt : OtsTimestamp → List AttestationAt
  | .mk msg attestations ops => attestations.map (⟨msg, ·⟩) ++ attestationsOf ops
def attestationsOf : List (OtsOp × OtsTimestamp) → List AttestationAt
  | [] => []
  | (_, next) :: ops => attestationsAt next ++ attestationsOf ops
end

structure BitcoinBlock where
  height : ℕ
  merkleRoot : Text
deriving DecidableEq, Repr

/-- The blocks that the attestations name, for messages of 32 bytes. -/
def bitcoinHits (ts : OtsTimestamp) : List BitcoinBlock :=
  (attestationsAt ts).filterMap fun a =>
    match a.attestation with
    | .bitcoin height =>
      if a.msg.length = 32 then some ⟨height, toHex a.msg.reverse⟩ else none
    | _ => none

/-- The first of the lowest blocks. -/
def lowest (bs : List BitcoinBlock) : Option BitcoinBlock :=
  (bs.insertionSort fun x y => x.height ≤ y.height).head?

def bitcoinAttestation (ts : OtsTimestamp) : Option BitcoinBlock := lowest (bitcoinHits ts)

structure PendingCommitment where
  uri : Text
  commitment : Bytes
deriving DecidableEq, Repr

def pendingCommitments (ts : OtsTimestamp) : List PendingCommitment :=
  (attestationsAt ts).filterMap fun a =>
    match a.attestation with
    | .pending uri => some ⟨uri, a.msg⟩
    | _ => none

mutual
/-- `mergeTimestamp(findByMsg(ts, msg), other)`: the first node with the message takes the other
timestamp. Without such a node nothing happens. -/
def mergeAt (msg : Bytes) (other : OtsTimestamp) : OtsTimestamp → Option (OtsTimestamp × Option String)
  | .mk m attestations ops =>
    if m = msg then some (mergeTimestamp (.mk m attestations ops) other)
    else (mergeAtOps msg other ops).map fun p => (.mk m attestations p.1, p.2)
def mergeAtOps (msg : Bytes) (other : OtsTimestamp) :
    List (OtsOp × OtsTimestamp) → Option (List (OtsOp × OtsTimestamp) × Option String)
  | [] => none
  | (op, next) :: ops =>
    match mergeAt msg other next with
    | some (merged, e) => some ((op, merged) :: ops, e)
    | none => (mergeAtOps msg other ops).map fun p => ((op, next) :: p.1, p.2)
end

end Klick.Ots
