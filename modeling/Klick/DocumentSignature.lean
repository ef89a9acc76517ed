-- The verifier of signed documents (`lib/signatures/verify.ts`). It reads COSE keys
-- with a CBOR reader of its own: past the end of the buffer there are zeros,
-- nothing bounds the levels, and every error below a key is a bad key.
import Klick.WebAuthn

open Js

namespace Klick.Document

/-! ## CBOR -/

inductive Cbor
  | num (z : ℤ)
  | bytes (b : Bytes)
  | text (t : Text)
  | arr (items : List Cbor)
  | map (entries : List (Cbor × Cbor))

/-- `buf[i] ?? 0` -/
def byteOrZero (buf : Bytes) (i : ℕ) : ℕ := (buf[i]?.map UInt8.toNat).getD 0

/-- The length of an item, and where its content begins. Only the four bytes of a
length must be there. -/
def readLength (buf : Bytes) (info p : ℕ) : Option (ℕ × ℕ) :=
  if info < 24 then some (info, p)
  else if info = 24 then some (byteOrZero buf p, p + 1)
  else if info = 25 then some (byteOrZero buf p * 256 + byteOrZero buf (p + 1), p + 2)
  else if info = 26 then
    if p + 4 ≤ buf.length then some (bigEndian ((buf.drop p).take 4), p + 4) else none
  else none

def readItems (read : ℕ → Option (Cbor × ℕ)) : ℕ → ℕ → Option (List Cbor × ℕ)
  | 0, p => some ([], p)
  | n + 1, p => do
    let (v, q) ← read p
    let (vs, r) ← readItems read n q
    return (v :: vs, r)

/-- The entries in the order in which they are set. -/
def readEntries (read : ℕ → Option (Cbor × ℕ)) : ℕ → ℕ → Option (List (Cbor × Cbor) × ℕ)
  | 0, p => some ([], p)
  | n + 1, p => do
    let (k, q) ← read p
    let (v, r) ← read q
    let (es, s) ← readEntries read n r
    return ((k, v) :: es, s)

/-- `readCbor`, where `none` is an error. Each level begins behind the one above it,
so behind as many levels as the buffer has bytes there is a zero. -/
def readCbor (buf : Bytes) : ℕ → ℕ → Option (Cbor × ℕ)
  | 0, pos => some (.num 0, pos + 1)
  | levels + 1, pos => do
    let head := byteOrZero buf pos
    let (len, p) ← readLength buf (head % 32) (pos + 1)
    match head / 32 with
    | 0 => return (.num len, p)
    | 1 => return (.num (-1 - len), p)
    | 2 => return (.bytes ((buf.drop p).take len), p + len)
    | 3 => return (.text (utf8Decode ((buf.drop p).take len)), p + len)
    | 4 => do
      let (items, p) ← readItems (readCbor buf levels) len p
      return (.arr items, p)
    | 5 => do
      let (entries, p) ← readEntries (readCbor buf levels) len p
      return (.map entries, p)
    | _ => none

/-- `m.get(k)` of a number, which was set last. -/
def get (entries : List (Cbor × Cbor)) (k : ℤ) : Option Cbor :=
  (entries.reverse.find? fun e => match e.1 with
    | .num z => z = k
    | _ => false).map Prod.snd

def isNum (v : Option Cbor) (z : ℤ) : Bool :=
  match v with
  | some (.num y) => y = z
  | _ => false

/-- `b64u` -/
def b64u : Option Cbor → Option Text
  | some (.bytes b) => some (toBase64Url b)
  | _ => none

/-! ## Keys -/

inductive Jwk
  | ec (x y : Text)
  | okp (x : Text)
  | rsa (n e : Text)

inductive Alg
  | es256 | edDsa | rs256
deriving DecidableEq, Repr

/-- What `node:crypto` does. Keys and signatures may be refused with an error. -/
structure Crypto (KeyObject : Type) where
  sha256 : Sha256
  createPublicKey : Jwk → Option KeyObject
  /-- The algorithm, or none, the data and the signature. -/
  verify : Option Text → Bytes → KeyObject → Bytes → Except Unit Bool

variable {KeyObject : Type}

/-- `coseToKey`, where `none` is an error. -/
def coseToKey (C : Crypto KeyObject) (cose : Bytes) : Option (KeyObject × Alg) := do
  let (v, _) ← readCbor cose (cose.length + 1) 0
  match v with
  | .map m =>
    if isNum (get m 1) 2 && isNum (get m 3) (-7) && isNum (get m (-1)) 1 then do
      let key ← C.createPublicKey (.ec (← b64u (get m (-2))) (← b64u (get m (-3))))
      return (key, .es256)
    else if isNum (get m 1) 1 && isNum (get m 3) (-8) && isNum (get m (-1)) 6 then do
      let key ← C.createPublicKey (.okp (← b64u (get m (-2))))
      return (key, .edDsa)
    else if isNum (get m 1) 3 && isNum (get m 3) (-257) then do
      let key ← C.createPublicKey (.rsa (← b64u (get m (-1))) (← b64u (get m (-2))))
      return (key, .rs256)
    else none
  | _ => none

/-! ## Assertions -/

structure AssertionFlags where
  up : Bool
  uv : Bool
  be : Bool
  bs : Bool
deriving DecidableEq, Repr

inductive Reason
  | clientData | type | challenge | origin | rpId | userPresence | userVerification | signature
  | key
deriving DecidableEq, Repr

inductive AssertionCheck
  | ok (flags : AssertionFlags) (signCount : ℕ)
  | failed (reason : Reason)
deriving DecidableEq, Repr

structure AssertionInput where
  publicKeyCose : Bytes
  authenticatorData : Bytes
  clientDataJSON : Bytes
  signature : Bytes
  expectedChallenge : Text
  expectedOrigin : Text
  rpId : Text
  requireUserVerification : Option Bool

def flagsOf (byte : ℕ) : AssertionFlags :=
  ⟨byte.testBit flagUP, byte.testBit flagUV, byte.testBit flagBE, byte.testBit flagBS⟩

/-- The signature over the data, by the algorithm of the key. -/
def verifySignature (C : Crypto KeyObject) (input : AssertionInput) (key : KeyObject × Alg) :
    Except WebAuthnThrown Bool :=
  let data := input.authenticatorData ++ C.sha256.digest input.clientDataJSON
  let alg := if key.2 = .edDsa then none else some (js "sha256")
  (C.verify alg data key.1 input.signature).mapError fun _ => .crypto

/-- The checks behind the client data. -/
def verifyAuthenticator (C : Crypto KeyObject) (input : AssertionInput) :
    Except WebAuthnThrown AssertionCheck := do
  let auth := input.authenticatorData
  if auth.length < 37 then return .failed .rpId
  if auth.take 32 ≠ C.sha256.digest (utf8 input.rpId) then return .failed .rpId
  let flags := flagsOf (byteOrZero auth 32)
  if !flags.up then return .failed .userPresence
  if input.requireUserVerification.getD true && !flags.uv then return .failed .userVerification
  match coseToKey C input.publicKeyCose with
  | none => return .failed .key
  | some key => do
    if !(← verifySignature C input key) then return .failed .signature
    return .ok flags (bigEndian ((auth.drop 33).take 4))

def verifyAssertion (C : Crypto KeyObject) (input : AssertionInput) :
    Except WebAuthnThrown AssertionCheck :=
  match parseJson (utf8Decode input.clientDataJSON) with
  | .error _ => .ok (.failed .clientData)
  | .ok client => do
    if !(← clientProp client "type").same (.text "webauthn.get") then return .failed .type
    if !(← clientProp client "challenge").same (.str input.expectedChallenge) then
      return .failed .challenge
    if !(← clientProp client "origin").same (.str input.expectedOrigin) ||
        (← clientProp client "crossOrigin").same (.bool true) then
      return .failed .origin
    verifyAuthenticator C input

end Klick.Document
