-- The keys of the signer (`signer/keys.ts`): one seed for each network. On
-- the disk lies only the entropy, sealed under the key-encryption key; the
-- words and the keys are derived from it by libraries.
import Klick.Base64
import Klick.Journal
import Klick.Networks
import Klick.OrderedMap

open Js

namespace Klick

structure BtcKey where
  priv : Bytes
  pub : Bytes
deriving DecidableEq, Repr

/-- What the libraries for keys do. -/
structure KeyLib where
  /-- `entropyToMnemonic` -/
  words : Bytes → Text
  /-- The fingerprint of the master key. -/
  fingerprint : WalletNetwork → Bytes → Text
  /-- The public extended key of an account. -/
  xpub : WalletNetwork → Bytes → ℕ → Text
  /-- The key of an account on a branch at an index. -/
  btcKey : WalletNetwork → Bytes → ℕ → ℕ → ℕ → Option BtcKey
  /-- The first private key of an account. -/
  ethKey : WalletNetwork → Bytes → ℕ → Option Bytes
  /-- Signing and verifying with the first key of the first account. -/
  selfTest : WalletNetwork → Bytes → Bool
  /-- AES-256-GCM: key, nonce, associated data and message give cipher and tag. -/
  encrypt : Bytes → Bytes → Bytes → Bytes → Bytes × Bytes
  decrypt : Bytes → Bytes → Bytes → Bytes → Bytes → Option Bytes

/-- The code of a `KeyError`. -/
inductive KeyError
  | index | network | chain | derive | decrypt | fingerprint | selfTest | kekFormat
deriving DecidableEq, Repr

/-- Entropy of the system, mixed with the throws of dice. -/
def newEntropy (H : Sha256) (random : Bytes) (dice : Option Text) : Bytes :=
  match dice with
  | none => random
  | some [] => random
  | some dice => List.zipWith (· ^^^ ·) random (H.digest (utf8 (js "klick-dice/v1|" ++ dice)))

/-! ## The file of sealed seeds -/

structure SealedSeed where
  fingerprint : Text
  iv : Bytes
  ct : Bytes
  tag : Bytes
deriving DecidableEq, Repr

structure SeedFile where
  seeds : OrderedMap WalletNetwork SealedSeed

/-- What is read when there is no file. -/
def SeedFile.empty : SeedFile := ⟨.empty⟩

/-- The network and the fingerprint are bound to the cipher. -/
def seedAad (network : WalletNetwork) (fingerprint : Text) : Bytes :=
  utf8 (js "klick-signer/v1|seed|" ++ network.key ++ ch '|' :: fingerprint)

def sealSeed (K : KeyLib) (kek : Bytes) (network : WalletNetwork) (entropy iv : Bytes) :
    SealedSeed :=
  let fingerprint := K.fingerprint network entropy
  let sealed := K.encrypt kek iv (seedAad network fingerprint) entropy
  ⟨fingerprint, iv, sealed.1, sealed.2⟩

def openSeed (K : KeyLib) (kek : Bytes) (network : WalletNetwork) (s : SealedSeed) :
    Except KeyError Bytes :=
  match K.decrypt kek s.iv (seedAad network s.fingerprint) s.ct s.tag with
  | none => .error .decrypt
  | some e => if K.fingerprint network e = s.fingerprint then .ok e else .error .fingerprint

/-! ## The key ring in memory -/

/-- A master key is a function of its entropy. -/
structure KeyRing where
  masters : OrderedMap WalletNetwork Bytes

namespace KeyRing

def empty : KeyRing := ⟨.empty⟩

/-- The entropies of some sealed seeds. -/
def openSeeds (K : KeyLib) (kek : Bytes) :
    List (WalletNetwork × SealedSeed) → KeyRing → Except KeyError KeyRing
  | [], ring => .ok ring
  | (n, s) :: seeds, ring =>
    match openSeed K kek n s with
    | .error e => .error e
    | .ok entropy => openSeeds K kek seeds ⟨ring.masters.set n entropy⟩

def load (K : KeyLib) (file : SeedFile) (kek : Bytes) : Except KeyError KeyRing :=
  openSeeds K kek file.seeds.entries empty

def networks (ring : KeyRing) : List WalletNetwork := ring.masters.entries.map Prod.fst

def fingerprint (K : KeyLib) (ring : KeyRing) (network : WalletNetwork) : Option Text :=
  (ring.masters.get network).map (K.fingerprint network)

/-- The master of a network, for a path to an account. -/
def account (ring : KeyRing) (network : WalletNetwork) (index : ℕ) : Except KeyError Bytes :=
  match ring.masters.get network with
  | none => .error .network
  | some entropy => if index < 2 ^ 31 then .ok entropy else .error .index

def accountXpub (K : KeyLib) (ring : KeyRing) (network : WalletNetwork) (index : ℕ) :
    Except KeyError Text :=
  (ring.account network index).map fun entropy => K.xpub network entropy index

/-- The keys of an account by branch and index. -/
def btcKeys (K : KeyLib) (ring : KeyRing) (network : WalletNetwork) (index : ℕ) :
    Except KeyError (ℕ → ℕ → Except KeyError BtcKey) :=
  match network.chain with
  | .ethereum => .error .chain
  | .bitcoin => (ring.account network index).map fun entropy branch i =>
    match K.btcKey network entropy index branch i with
    | some key => .ok key
    | none => .error .derive

def ethPrivateKey (K : KeyLib) (ring : KeyRing) (network : WalletNetwork) (index : ℕ) :
    Except KeyError Bytes :=
  match network.chain with
  | .bitcoin => .error .chain
  | .ethereum =>
    match ring.account network index with
    | .error e => .error e
    | .ok entropy =>
      match K.ethKey network entropy index with
      | some key => .ok key
      | none => .error .derive

/-- The self test of every network. -/
def selfTest (K : KeyLib) (ring : KeyRing) : Except KeyError Unit :=
  if ring.masters.entries.all fun e => K.selfTest e.1 e.2 then .ok () else .error .selfTest

end KeyRing

end Klick
