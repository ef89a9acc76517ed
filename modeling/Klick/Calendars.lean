-- The calendars that an anchor is submitted to and upgraded from
-- (`lib/ledger/calendar.ts`, `lib/ledger/anchor.ts`, `lib/ledger/service.ts`).
import Klick.Ots
import Klick.OrderedMap
import Klick.Coercion

open Js

namespace Klick.Ots

/-! ## Calendars that may be asked -/

/-- What `new URL` reads in an address. -/
structure Url where
  protocol : Text
  hostname : Text
  username : Text
  password : Text
  search : Text
  hash : Text
deriving DecidableEq

/-- `DEFAULT_CALENDARS` -/
def defaultCalendars : List Text :=
  [js "https://a.pool.opentimestamps.org", js "https://b.pool.opentimestamps.org",
    js "https://a.pool.eternitywall.com"]

/-- `KNOWN_HOSTS` -/
def knownHosts : List Text :=
  [js "a.pool.opentimestamps.org", js "b.pool.opentimestamps.org", js "a.pool.eternitywall.com",
    js "alice.btc.calendar.opentimestamps.org", js "bob.btc.calendar.opentimestamps.org",
    js "finney.calendar.eternitywall.com", js "btc.calendar.catallaxy.com"]

/-- `MAX_RESPONSE` -/
def maxResponse : ℕ := 64 * 1024

/-- `t.replace(/\/+$/, "")` -/
def stripSlashes (t : Text) : Text := (t.reverse.dropWhile (· = ch '/')).reverse

/-- `configuredCalendars` -/
def configuredCalendars (env : Option Text) : List Text :=
  let list := ((env.getD []).splitOn (ch ',')).map (fun s => stripSlashes (trim s))
    |>.filter (· ≠ [])
  if list = [] then defaultCalendars else list

/-- The calendars of a server, and what it makes of an address. -/
structure Setting where
  newUrl : Text → Option Url
  calendars : List Text
  production : Bool

def calendarAllowed (S : Setting) (uri : Text) : Bool :=
  match S.newUrl uri with
  | none => false
  | some u =>
    if u.username ≠ [] ∨ u.password ≠ [] ∨ u.search ≠ [] ∨ u.hash ≠ [] then false
    else if u.protocol = js "https:" ∧ u.hostname ∈ knownHosts then true
    else if ¬ S.calendars.any (fun c => stripSlashes c = stripSlashes uri) then false
    else u.protocol = js "https:" || (!S.production && u.protocol = js "http:")

/-! ## Anchors -/

section Digests

variable (D : Digests)

/-- The body of a response that is ok, read up to its limit. -/
def readResponse (body commitment : Bytes) : Except String OtsTimestamp :=
  if maxResponse < body.length then .error "calendar_too_large"
  else parseTimestamp D body commitment

/-- `stampTree`: the file around its commitment, and the commitment. -/
structure Stamp where
  digest : Bytes
  nonce : Bytes
  salted : Bytes
  commitment : OtsTimestamp

def Stamp.file (s : Stamp) (commitment : OtsTimestamp) : OtsTimestamp :=
  .mk s.digest [] [(.append s.nonce, .mk s.salted [] [(.sha256, commitment)])]

/-- `Buffer.from(t, "hex")` -/
def fromHex : Text → Bytes
  | a :: b :: t =>
    match hexValue a, hexValue b with
    | some x, some y => byte (16 * x + y) :: fromHex t
    | _, _ => []
  | _ => []

/-- The bytes of a root that is sixty-four hexadecimal digits. -/
def rootBytes (root : Text) : Option Bytes :=
  if root.length = 64 ∧ root.all isHexLower = true then some (fromHex root) else none

def stampTree (root : Text) (nonce : Bytes) : Except String Stamp :=
  match rootBytes root with
  | none => .error "ledger_root"
  | some bytes =>
    if nonce.length < 16 then .error "ledger_nonce" else do
    let digest := D.sha256.digest bytes
    let salted ← applyOp D (.append nonce) digest
    let msg ← applyOp D .sha256 salted
    return ⟨digest, nonce, salted, newTimestamp msg⟩

/-- A calendar and the body of its answer, if it gave one. -/
structure Answer where
  calendar : Text
  body : Option Bytes

/-- The commitment with the answers so far, and the calendars that gave them. -/
structure Collected where
  commitment : OtsTimestamp
  answered : List Text

/-- One calendar of `anchorNow`, when its answer comes. -/
def collect (S : Setting) (c : Collected) (a : Answer) : Collected :=
  if ¬ calendarAllowed S a.calendar then c else
  match a.body with
  | none => c
  | some body =>
    match readResponse D body c.commitment.msg with
    | .error _ => c
    | .ok ts =>
      match mergeTimestamp c.commitment ts with
      | (merged, none) => ⟨merged, c.answered ++ [a.calendar]⟩
      | (merged, some _) => { c with commitment := merged }

/-- All calendars of `anchorNow`, in the order in which their answers come. -/
def collectAll (S : Setting) (s : Stamp) (answers : List Answer) : Collected :=
  answers.foldl (collect D S) ⟨s.commitment, []⟩

inductive AnchorStatus
  | pending
  | confirmed
  | failed
deriving DecidableEq, Repr

structure Anchor where
  ots : Option Bytes
  status : AnchorStatus
  calendars : List Text
  bitcoin : Option BitcoinBlock

/-- `anchorNow` from the root on. -/
def anchorNow (S : Setting) (root : Text) (nonce : Bytes) (answers : List Answer) :
    Except String Anchor := do
  let s ← stampTree D root nonce
  let c := collectAll D S s answers
  if c.answered = [] then return ⟨none, .failed, [], none⟩ else
  let ots ← serializeOtsFile (s.file c.commitment)
  return ⟨some ots, .pending, c.answered.insertionSort (fun a b => textLe a b = true), none⟩

/-! ## Upgrades -/

/-- `CONFIRMING_CALENDARS` -/
def confirmingCalendars : ℕ := 2

def confirmedBy (byCalendar : OrderedMap Text BitcoinBlock) (acceptedBy : ℕ) : Option BitcoinBlock :=
  let need := min confirmingCalendars (max 1 acceptedBy)
  if byCalendar.values.length < need then none else lowest byCalendar.values

/-- The file in the course of an upgrade, and the blocks that the calendars name. -/
structure Upgrade where
  file : OtsTimestamp
  byCalendar : OrderedMap Text BitcoinBlock

/-- The block that a calendar has named before it is kept unless the new one is lower. -/
def Upgrade.named (u : Upgrade) (uri : Text) (b : Option BitcoinBlock) : Upgrade :=
  match b with
  | none => u
  | some b =>
    match u.byCalendar.get uri with
    | none => { u with byCalendar := u.byCalendar.set uri b }
    | some prev =>
      if b.height < prev.height then { u with byCalendar := u.byCalendar.set uri b } else u

/-- One pending commitment of `upgradePendingAnchors`, with the body of the answer, if one came. -/
def upgradeOne (S : Setting) (u : Upgrade) (p : PendingCommitment) (body : Option Bytes) : Upgrade :=
  if ¬ calendarAllowed S p.uri then u else
  match body with
  | none => u
  | some body =>
    match readResponse D body p.commitment with
    | .error _ => u
    | .ok upgraded =>
      match mergeAt p.commitment upgraded u.file with
      | none => u
      | some (merged, some _) => { u with file := merged }
      | some (merged, none) => Upgrade.named { u with file := merged } p.uri (bitcoinAttestation upgraded)

/-- All pending commitments of a file; `answer k` is the body that comes for the one at `k`. -/
def upgradeAll (S : Setting) (answer : ℕ → Option Bytes) (file : OtsTimestamp) : Upgrade :=
  ((pendingCommitments file).mapIdx fun k p => (p, answer k)).foldl
    (fun u p => upgradeOne D S u p.1 p.2) ⟨file, .empty⟩

/-- The largest number of an integer column. -/
def maxInteger : ℕ := 2147483647

/-- `upgradePendingAnchors` for one anchor. -/
def upgradeAnchor (S : Setting) (answer : ℕ → Option Bytes) (a : Anchor) : Except String Anchor :=
  match a.ots with
  | none => .ok a
  | some ots => do
    let file ← parseOtsFile D ots
    let u := upgradeAll D S answer file
    let btc := confirmedBy u.byCalendar a.calendars.length
    let ots ← serializeOtsFile u.file
    match btc with
    | none => return { a with ots := some ots }
    | some b =>
      if maxInteger < b.height then .error "integer out of range"
      else return { a with ots := some ots, status := .confirmed, bitcoin := some b }

end Digests

end Klick.Ots
