-- WebAuthn in the signer (`signer/webauthn.ts`): the enrolment of a security
-- key and the check of an assertion. Only keys that stay on their device, with
-- user verification and ES256 on P-256.
import Klick.Base64
import Klick.Coercion
import Klick.Journal
import Klick.Checked
import Mathlib.Data.Sum.Basic

open Js

namespace Klick

/-! ## Failures -/

/-- The codes of a `WebAuthnFailure`. -/
inductive WebAuthnError
  | encoding | mac | clientType | challenge | origin | crossOrigin | rp | userPresence
  | userVerification | backup | attested | credential | algorithm | keyMismatch | counter
  | signature
deriving DecidableEq, Repr

def WebAuthnError.code : WebAuthnError → String
  | encoding => "encoding"
  | mac => "mac"
  | clientType => "client_type"
  | challenge => "challenge"
  | origin => "origin"
  | crossOrigin => "cross_origin"
  | rp => "rp"
  | userPresence => "user_presence"
  | userVerification => "user_verification"
  | backup => "backup"
  | attested => "attested"
  | credential => "credential"
  | algorithm => "algorithm"
  | keyMismatch => "key_mismatch"
  | counter => "counter"
  | signature => "signature"

inductive WebAuthnThrown
  /-- `WebAuthnFailure` -/
  | failure (code : WebAuthnError)
  /-- An error of the language. -/
  | exn (e : Exn)
  /-- An error of `node:crypto`. -/
  | crypto
deriving DecidableEq, Repr

/-- What `node:crypto` does. -/
structure Crypto where
  sha256 : Sha256
  /-- The key and the message. -/
  hmacSha256 : Bytes → Bytes → Bytes
  /-- `createPublicKey` of a key in DER, and `verify` of data and signature with it. Either throws. -/
  verify : Bytes → Bytes → Bytes → Except Unit Bool

/-! ## CBOR -/

inductive Cbor
  | num (z : ℤ)
  /-- What becomes of a length that is not there. -/
  | undefined
  | nan
  | bytes (b : Bytes)
  | text (t : Text)
  | arr (items : List Cbor)
  | map (entries : List ((Option ℤ ⊕ Text) × Cbor))

/-- A key of a map: a number, `NaN` among them, or a text. -/
abbrev CborKey := Option ℤ ⊕ Text

def Cbor.key? : Cbor → Option CborKey
  | .num z => some (.inl (some z))
  | .nan => some (.inl none)
  | .text t => some (.inr t)
  | _ => none

/-- A reading of a buffer: the indexes it has used, and what came of it.
An index that is not a number is `NaN`. -/
structure Reading (α : Type) where
  indexes : List (Option ℕ)
  result : Except WebAuthnThrown α

namespace Reading

variable {α β : Type}

def bind (x : Reading α) (f : α → Reading β) : Reading β :=
  match x.result with
  | .error e => ⟨x.indexes, .error e⟩
  | .ok a => ⟨x.indexes ++ (f a).indexes, (f a).result⟩

instance : Monad Reading where
  pure a := ⟨[], .ok a⟩
  bind := bind

def throw (e : WebAuthnThrown) : Reading α := ⟨[], .error e⟩

/-- `fail(code)` -/
def fail (code : WebAuthnError) : Reading α := throw (.failure code)

end Reading

/-- `buf[i]` -/
def byteAt (buf : Bytes) (i : Option ℕ) : Reading (Option ℕ) :=
  ⟨[i], .ok (i.bind fun i => buf[i]?.map UInt8.toNat)⟩

/-- `buf.readUInt16BE(i)`, which throws where the buffer ends. -/
def readUInt16BE (buf : Bytes) (i : Option ℕ) : Reading ℕ := do
  let high ← byteAt buf i
  let low ← byteAt buf (i.map (· + 1))
  match high, low with
  | some high, some low => return high * 256 + low
  | _, _ => Reading.throw (.exn .rangeError)

/-- `a + b`, which is `NaN` with `undefined` or `NaN`. -/
def plusMaybe (a b : Option ℕ) : Option ℕ := a.bind fun a => b.map (a + ·)

/-- The length of an item, and where its content begins. -/
def cborLength (buf : Bytes) (info : ℕ) (pos : Option ℕ) : Reading (Option ℕ × Option ℕ) := do
  if info < 24 then return (some info, pos)
  else if info = 24 then return (← byteAt buf pos, pos.map (· + 1))
  else if info = 25 then return (some (← readUInt16BE buf pos), pos.map (· + 2))
  else Reading.fail .encoding

/-- `buf.subarray(pos, pos + len)`; a bound that is `NaN` counts as zero. -/
def cborSlice (buf : Bytes) (pos len : Option ℕ) : Reading Bytes :=
  match pos, len with
  | some pos, some len =>
    if buf.length < pos + len then Reading.fail .encoding
    else ⟨(List.range' pos len).map some, .ok ((buf.drop pos).take len)⟩
  | _, _ => pure []

/-- The loop over the items of an array. -/
def cborItems (decode : Option ℕ → Reading (Cbor × Option ℕ)) :
    ℕ → Option ℕ → Reading (List Cbor × Option ℕ)
  | 0, pos => pure ([], pos)
  | n + 1, pos => do
    let (v, next) ← decode pos
    let (vs, pos) ← cborItems decode n next
    return (v :: vs, pos)

/-- The loop over the entries of a map. -/
def cborEntries (decode : Option ℕ → Reading (Cbor × Option ℕ)) :
    ℕ → List (CborKey × Cbor) → Option ℕ → Reading (List (CborKey × Cbor) × Option ℕ)
  | 0, entries, pos => pure (entries, pos)
  | n + 1, entries, pos => do
    let (k, afterKey) ← decode pos
    let (v, afterVal) ← decode afterKey
    match k.key? with
    | none => Reading.fail .encoding
    | some k =>
      if entries.any (fun e => e.1 = k) then Reading.fail .encoding
      else cborEntries decode n (entries ++ [(k, v)]) afterVal

/-- `cborDecode`, with the levels that are left below the depth of 4. -/
def cborDecode (buf : Bytes) : ℕ → Option ℕ → Reading (Cbor × Option ℕ)
  | 0, _ => Reading.fail .encoding
  | levels + 1, offset => do
    if offset.any (buf.length ≤ ·) then Reading.fail .encoding
    else
      -- without a byte, the head is undefined, and its bits are zeros
      let head := (← byteAt buf offset).getD 0
      let (len, pos) ← cborLength buf (head % 32) (offset.map (· + 1))
      match head / 32 with
      | 0 => return (len.elim .undefined fun n => .num n, pos)
      | 1 => return (len.elim .nan fun n => .num (-1 - n), pos)
      | 2 => return (.bytes (← cborSlice buf pos len), plusMaybe pos len)
      | 3 => return (.text (utf8Decode (← cborSlice buf pos len)), plusMaybe pos len)
      | 4 => do
        let (items, pos) ← cborItems (cborDecode buf levels) (len.getD 0) pos
        return (.arr items, pos)
      | 5 => do
        let (entries, pos) ← cborEntries (cborDecode buf levels) (len.getD 0) [] pos
        return (.map entries, pos)
      | _ => Reading.fail .encoding

/-- The levels of `cborDecode(buf, offset)`. -/
def cborLevels : ℕ := 5

/-- `map.get(k)` of a number. -/
def cborGet (entries : List (CborKey × Cbor)) (k : ℤ) : Option Cbor :=
  (entries.find? fun e => e.1 = .inl (some k)).map Prod.snd

def Cbor.num? : Cbor → Option ℤ
  | .num z => some z
  | _ => none

def Cbor.bytes? : Cbor → Option Bytes
  | .bytes b => some b
  | _ => none

/-- A step that fails with a code. -/
def failUnless (ok : Bool) (code : WebAuthnError) : Except WebAuthnThrown Unit :=
  check ok (.failure code)

theorem failUnless_eq_ok {b : Bool} {code : WebAuthnError} {u : Unit} :
    failUnless b code = .ok u ↔ b = true := check_eq_ok

/-- The point of a COSE key: EC2, ES256, P-256. -/
def coseP256 : Cbor → Except WebAuthnThrown (Bytes × Bytes)
  | .map entries => do
    let is := fun k z => (cborGet entries k).bind Cbor.num? = some z
    failUnless (is 1 2 && is 3 (-7) && is (-1) 1) .algorithm
    match (cborGet entries (-2)).bind Cbor.bytes?, (cborGet entries (-3)).bind Cbor.bytes? with
    | some x, some y => do
      failUnless (x.length = 32 && y.length = 32) .algorithm
      return (x, y)
    | _, _ => .error (.failure .algorithm)
  | _ => .error (.failure .encoding)

/-- `SPKI_P256_PREFIX` -/
def spkiP256Prefix : Bytes :=
  [0x30, 0x59, 0x30, 0x13, 0x06, 0x07, 0x2a, 0x86, 0x48, 0xce, 0x3d, 0x02, 0x01, 0x06, 0x08, 0x2a,
    0x86, 0x48, 0xce, 0x3d, 0x03, 0x01, 0x07, 0x03, 0x42, 0x00]

def pointOfSpki (spki : Bytes) : Except WebAuthnThrown Bytes := do
  failUnless (spki.length = 91 && spki.take 26 = spkiP256Prefix && spki[26]? = some 4) .algorithm
  return spki.drop 27

/-! ## Authenticator data and client data -/

structure Attested where
  aaguid : Bytes
  credId : Bytes
  cose : Cbor

structure AuthData where
  rpIdHash : Bytes
  flags : ℕ
  counter : ℕ
  attested : Option Attested

/-- `FLAG`, by the number of the bit. -/
def flagUP : ℕ := 0
def flagUV : ℕ := 2
def flagBE : ℕ := 3
def flagBS : ℕ := 4
def flagAT : ℕ := 6
def flagED : ℕ := 7

/-- An unsigned integer of some bytes, the highest first. -/
def bigEndian (bs : Bytes) : ℕ := bs.foldl (fun n b => n * 256 + b.toNat) 0

/-- The attested credential from byte 37 on, and where it ends. -/
def parseAttested (buf : Bytes) : Except WebAuthnThrown (Attested × Option ℕ) := do
  failUnless (37 + 18 ≤ buf.length) .encoding
  let len := bigEndian ((buf.drop 53).take 2)
  failUnless (16 ≤ len && len ≤ 1023 && 55 + len ≤ buf.length) .encoding
  let (cose, next) ← (cborDecode buf cborLevels (some (55 + len))).result
  return (⟨(buf.drop 37).take 16, (buf.drop 55).take len, cose⟩, next)

def parseAuthData (buf : Bytes) : Except WebAuthnThrown AuthData := do
  failUnless (37 ≤ buf.length && buf.length ≤ 1024) .encoding
  let flags := bigEndian ((buf.drop 32).take 1)
  let (attested, pos) ← if flags.testBit flagAT then do
      let (attested, pos) ← parseAttested buf
      pure (some attested, pos)
    else pure (none, some 37)
  failUnless (!flags.testBit flagED && pos = some buf.length) .encoding
  return ⟨buf.take 32, flags, bigEndian ((buf.drop 33).take 4), attested⟩

structure ClientDataWanted where
  type : String
  challenge : Bytes
  origin : Text

/-- A property of what `JSON.parse` gave; null has none. -/
def clientProp (cd : Value) (k : String) : Except WebAuthnThrown Value :=
  (cd.prop k).mapError .exn

def checkClientData (raw : Bytes) (want : ClientDataWanted) : Except WebAuthnThrown Unit := do
  failUnless (raw.length ≤ 2048) .encoding
  let cd ← (parseJson (utf8Decode raw)).mapError fun _ => .failure .encoding
  failUnless ((← clientProp cd "type").same (.text want.type)) .clientType
  failUnless ((← clientProp cd "challenge").same (.str (toBase64Url want.challenge))) .challenge
  failUnless ((← clientProp cd "origin").same (.str want.origin)) .origin
  let crossOrigin ← clientProp cd "crossOrigin"
  failUnless (crossOrigin.same .undefined || crossOrigin.same (.bool false)) .crossOrigin
  failUnless ((← clientProp cd "topOrigin").same .undefined) .crossOrigin

def checkFlags (C : Crypto) (a : AuthData) (rpId : Text) : Except WebAuthnThrown Unit := do
  failUnless (a.rpIdHash = C.sha256.digest (utf8 rpId)) .rp
  failUnless (a.flags.testBit flagUP) .userPresence
  failUnless (a.flags.testBit flagUV) .userVerification
  failUnless (!a.flags.testBit flagBE && !a.flags.testBit flagBS) .backup

/-- `b64u.decode` -/
def b64uDecode (s : Text) (max : ℕ) : Except WebAuthnThrown Bytes := do
  failUnless (s.length ≤ max && s.all isBase64Unit) .encoding
  return ofBase64Url s

theorem b64uDecode_eq_ok {s : Text} {max : ℕ} {bs : Bytes} (h : b64uDecode s max = .ok bs) :
    bs = ofBase64Url s := by
  unfold b64uDecode at h
  simp only [bind_eq_ok, failUnless_eq_ok, pure_eq_ok] at h
  obtain ⟨-, -, rfl⟩ := h
  rfl

/-! ## Enrolment -/

def enrolChallenge (C : Crypto) (secretHex enrolId : Text) : Bytes :=
  C.hmacSha256 (ofHex secretHex) (utf8 (js "klick-enrol/v1|challenge|" ++ enrolId))

/-- The digest of bytes in hexadecimal. -/
def hexDigest (C : Crypto) (bs : Bytes) : Text := toHex (C.sha256.digest bs)

def enrolMac (C : Crypto) (secretHex enrolId credId : Text) (clientDataJSON authenticatorData
    spki : Bytes) : Bytes :=
  C.hmacSha256 (ofHex secretHex) (utf8 (join (ch '|') [js "klick-enrol/v1", enrolId, credId,
    hexDigest C clientDataJSON, hexDigest C authenticatorData, hexDigest C spki]))

structure EnrolInput where
  enrolId : Text
  credId : Text
  spki : Text
  authenticatorData : Text
  clientDataJSON : Text
  mac : Text

structure EnrolContext where
  rpId : Text
  origin : Text
  secret : Text

structure Enrolled where
  credId : Text
  spki : Text
  aaguid : Text
  counter : ℕ
deriving DecidableEq, Repr

def verifyEnrolment (C : Crypto) (input : EnrolInput) (ctx : EnrolContext) :
    Except WebAuthnThrown Enrolled := do
  let credId ← b64uDecode input.credId 1400
  let spki ← b64uDecode input.spki 200
  let authData ← b64uDecode input.authenticatorData 1400
  let cdj ← b64uDecode input.clientDataJSON 2800
  let mac ← b64uDecode input.mac 64
  failUnless (mac = enrolMac C ctx.secret input.enrolId input.credId cdj authData spki) .mac
  checkClientData cdj ⟨"webauthn.create", enrolChallenge C ctx.secret input.enrolId, ctx.origin⟩
  let a ← parseAuthData authData
  checkFlags C a ctx.rpId
  let attested ← orRefuse a.attested (.failure .attested)
  failUnless (attested.credId = credId) .credential
  let (x, y) ← coseP256 attested.cose
  let point ← pointOfSpki spki
  failUnless (point = x ++ y) .keyMismatch
  return ⟨toBase64Url credId, toBase64Url spki, toHex attested.aaguid, a.counter⟩

/-! ## Assertion -/

structure AssertionInput where
  authenticatorData : Text
  clientDataJSON : Text
  signature : Text

structure AssertionContext where
  rpId : Text
  origin : Text
  challenge : Bytes
  spki : Text
  storedCounter : ℕ

/-- The counter of an assertion that passes. -/
def verifyAssertion (C : Crypto) (input : AssertionInput) (ctx : AssertionContext) :
    Except WebAuthnThrown ℕ := do
  let authData ← b64uDecode input.authenticatorData 1400
  let cdj ← b64uDecode input.clientDataJSON 2800
  let sig ← b64uDecode input.signature 200
  checkClientData cdj ⟨"webauthn.get", ctx.challenge, ctx.origin⟩
  let a ← parseAuthData authData
  checkFlags C a ctx.rpId
  let spki ← b64uDecode ctx.spki 200
  let ok ← (C.verify spki (authData ++ C.sha256.digest cdj) sig).mapError fun _ => .crypto
  failUnless ok .signature
  -- a counter that is in use must rise
  failUnless ((a.counter = 0 && ctx.storedCounter = 0) || ctx.storedCounter < a.counter) .counter
  return a.counter

end Klick
