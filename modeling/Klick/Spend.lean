-- Building and signing a transaction from a plan (`lib/wallet/core/btc-spend.ts`
-- and `eth-spend.ts`). Destination and amount come from the approved intent;
-- parsing and signing are done by libraries.
import Klick.Address
import Klick.Checked
import Klick.CoinSelect
import Klick.Keys
import Klick.Mandate

open Js

namespace Klick

/-- What building a transaction throws. -/
inductive SpendThrown
  /-- `SpendError` -/
  | spend (code : String)
  | key (e : KeyError)
  | exn (e : Exn)
  /-- An error of a library. -/
  | library
deriving DecidableEq, Repr

def spendCheck (ok : Bool) (code : String) : Except SpendThrown Unit := check ok (.spend code)

/-! ## Bitcoin -/

structure PrevOutput where
  script : Option Bytes
  amount : Option ℕ
deriving DecidableEq, Repr

/-- A transaction that was read; `getOutput` throws beyond the last output. -/
structure PrevTx where
  id : Text
  outputs : List PrevOutput

structure TxInput where
  txid : Text
  vout : ℕ
  prevTxHex : Text
  script : Bytes
  amount : ℕ
  key : BtcKey
deriving DecidableEq, Repr

/-- What is signed: the inputs, the payment, and the change if there is any. -/
structure TxPlan where
  live : Bool
  inputs : List TxInput
  destination : Text
  amount : ℕ
  change : Option (Bytes × ℕ)
deriving DecidableEq, Repr

structure SignedTx where
  raw : Text
  txid : Text
  fee : ℕ
  vsize : ℕ
  vsize_pos : 0 < vsize

/-- What the library for Bitcoin does. -/
structure BtcLib where
  /-- The script and the address of a public key. -/
  p2wpkhScript : Bytes → Bytes
  p2wpkhAddress : Bool → Bytes → Text
  /-- `Transaction.fromRaw`, which may throw. -/
  fromRaw : Bytes → Option PrevTx
  /-- Adding all parts, signing and finalizing, which may throw. -/
  sign : TxPlan → Option SignedTx

structure BtcSpendInput where
  txid : Text
  vout : ℕ
  prevTxHex : Text
  branch : ℕ
  index : ℕ
deriving DecidableEq, Repr

/-- `${txid}:${vout}` -/
def BtcSpendInput.outpoint (i : BtcSpendInput) : Text := i.txid ++ ch ':' :: decimal i.vout

structure BtcSpendRequest where
  network : WalletNetwork
  destination : Text
  amount : ℤ
  inputs : List BtcSpendInput
  changeIndex : Option ℕ
  fee : ℕ
  feeCap : ℕ
  maxSatPerVb : Value

structure BtcSpend where
  raw : Text
  txid : Text
  vsize : ℕ
  fee : ℕ
  change : ℕ
  outpoints : List Text

/-- An error of the keys. -/
def keyed {α : Type} (v : Except KeyError α) : Except SpendThrown α := v.mapError .key

/-- One turn of the loop over the inputs. -/
def spendInput (B : BtcLib) (keyAt : ℕ → ℕ → Except KeyError BtcKey) (seen : List Text)
    (input : BtcSpendInput) : Except SpendThrown TxInput := do
  spendCheck (input.outpoint ∉ seen) "duplicate_input"
  spendCheck (isHex 64 input.txid) "txid"
  let prev ← orRefuse (B.fromRaw (ofHex input.prevTxHex)) .library
  spendCheck (prev.id = input.txid) "prev_tx"
  let out ← orRefuse prev.outputs[input.vout]? .library
  let script ← orRefuse out.script (.spend "prev_output")
  let amount ← orRefuse out.amount (.spend "prev_output")
  let key ← keyed (keyAt input.branch input.index)
  spendCheck (script = B.p2wpkhScript key.pub) "foreign_input"
  return ⟨input.txid, input.vout, input.prevTxHex, script, amount, key⟩

def spendInputs (B : BtcLib) (keyAt : ℕ → ℕ → Except KeyError BtcKey) (seen : List Text) :
    List BtcSpendInput → Except SpendThrown (List TxInput)
  | [] => .ok []
  | input :: inputs => do
    let tx ← spendInput B keyAt seen input
    let txs ← spendInputs B keyAt (seen ++ [input.outpoint]) inputs
    return tx :: txs

/-- The fee divided by the size is above a cap. -/
def rateAbove (fee vsize : ℕ) (cap : Value) : Except Exn Bool :=
  cap.lt (.num (.ofRat (fl fee / vsize)))

/-- The output for the change, if there is any: at an index, and not below the dust. -/
def changeOutput (B : BtcLib) (keyAt : ℕ → ℕ → Except KeyError BtcKey) (changeIndex : Option ℕ)
    (change : ℤ) : Except SpendThrown (Option (Bytes × ℕ)) :=
  if 0 < change then do
    spendCheck (dustP2wpkh ≤ change) "dust_change"
    let index ← orRefuse changeIndex (.spend "change_index")
    let key ← keyed (keyAt 1 index)
    return some (B.p2wpkhScript key.pub, change.toNat)
  else return none

def buildBtcSpend (A : AddressLib) (B : BtcLib) (req : BtcSpendRequest)
    (keyAt : ℕ → ℕ → Except KeyError BtcKey) : Except SpendThrown BtcSpend := do
  spendCheck (req.network.chain = .bitcoin) "network"
  spendCheck (checkAddress A req.network req.destination = .ok req.destination) "destination"
  spendCheck (0 < req.amount) "amount"
  spendCheck (req.inputs ≠ [] && req.inputs.length ≤ 200) "inputs"
  spendCheck (req.fee ≤ req.feeCap) "fee_cap"
  let inputs ← spendInputs B keyAt [] req.inputs
  let total := (inputs.map (·.amount)).sum
  let change : ℤ := total - req.amount - req.fee
  spendCheck (0 ≤ change) "insufficient"
  let output ← changeOutput B keyAt req.changeIndex change
  let tx ← orRefuse (B.sign ⟨req.network.live, inputs, req.destination, req.amount.toNat,
    output⟩) .library
  spendCheck (tx.fee = req.fee) "fee_mismatch"
  let above ← (rateAbove req.fee tx.vsize req.maxSatPerVb).mapError .exn
  spendCheck (!above) "fee_rate"
  return ⟨tx.raw, tx.txid, tx.vsize, req.fee, change.toNat, req.inputs.map (·.outpoint)⟩

/-- The inputs are distinct coins, and none was seen before. -/
theorem spendInputs_fresh {B : BtcLib} {keyAt : ℕ → ℕ → Except KeyError BtcKey}
    {seen : List Text} {inputs : List BtcSpendInput} {txs : List TxInput}
    (h : spendInputs B keyAt seen inputs = .ok txs) :
    (inputs.map (·.outpoint)).Nodup ∧ ∀ x ∈ inputs, x.outpoint ∉ seen := by
  induction inputs generalizing seen txs with
  | nil => exact ⟨.nil, fun _ hx => (nomatch hx)⟩
  | cons input inputs ih =>
    simp only [spendInputs, bind_eq_ok, pure_eq_ok] at h
    obtain ⟨tx, htx, rest, hrest, -⟩ := h
    simp only [spendInput, spendCheck, bind_eq_ok, check_eq_ok, exists_const,
      decide_eq_true_eq] at htx
    obtain ⟨hnodup, hseen⟩ := ih hrest
    constructor
    · rw [List.map_cons, List.nodup_cons]
      refine ⟨fun hm => ?_, hnodup⟩
      obtain ⟨x, hx, heq⟩ := List.mem_map.mp hm
      exact hseen x hx (by simp [heq])
    · intro x hx
      rcases List.mem_cons.mp hx with rfl | hx
      · exact htx.1
      · exact fun hm => hseen x hx (List.mem_append_left _ hm)

/-- The total of the inputs, less the amount and the fee. -/
def BtcSpendRequest.change (req : BtcSpendRequest) (inputs : List TxInput) : ℤ :=
  (inputs.map (·.amount)).sum - req.amount - req.fee

/-- What holds of a transaction that was built. -/
structure BtcBuilt (A : AddressLib) (B : BtcLib) (req : BtcSpendRequest)
    (keyAt : ℕ → ℕ → Except KeyError BtcKey) (s : BtcSpend) (inputs : List TxInput)
    (tx : SignedTx) : Prop where
  chain : req.network.chain = .bitcoin
  destination : checkAddress A req.network req.destination = .ok req.destination
  amount : 0 < req.amount
  count : req.inputs ≠ [] ∧ req.inputs.length ≤ 200
  feeCap : req.fee ≤ req.feeCap
  reads : spendInputs B keyAt [] req.inputs = .ok inputs
  change : 0 ≤ req.change inputs
  signs : ∃ output, changeOutput B keyAt req.changeIndex (req.change inputs) = .ok output ∧
    B.sign ⟨req.network.live, inputs, req.destination, req.amount.toNat, output⟩ = some tx
  fee : tx.fee = req.fee
  rate : rateAbove req.fee tx.vsize req.maxSatPerVb = .ok false
  result : s = ⟨tx.raw, tx.txid, tx.vsize, req.fee, (req.change inputs).toNat,
    req.inputs.map (·.outpoint)⟩

theorem buildBtcSpend_built {A : AddressLib} {B : BtcLib} {req : BtcSpendRequest}
    {keyAt : ℕ → ℕ → Except KeyError BtcKey} {s : BtcSpend} :
    buildBtcSpend A B req keyAt = .ok s ↔ ∃ inputs tx, BtcBuilt A B req keyAt s inputs tx := by
  unfold buildBtcSpend spendCheck
  simp only [bind_eq_ok, check_eq_ok, exists_const, orRefuse_eq_ok, mapError_eq_ok, pure_eq_ok,
    decide_eq_true_eq, Bool.and_eq_true, Bool.not_eq_true']
  constructor
  · rintro ⟨h1, h2, h3, h4, h5, inputs, h6, h7, output, h8, tx, h9, h10, above, h11, rfl, rfl⟩
    exact ⟨inputs, tx, h1, h2, h3, h4, h5, h6, h7, ⟨output, h8, h9⟩, h10, h11, rfl⟩
  · rintro ⟨inputs, tx, h1, h2, h3, h4, h5, h6, h7, ⟨output, h8, h9⟩, h10, h11, rfl⟩
    exact ⟨h1, h2, h3, h4, h5, inputs, h6, h7, output, h8, tx, h9, h10, false, h11, rfl, rfl⟩

/-! ## Ethereum -/

structure EthTx where
  chainId : ℕ
  nonce : ℕ
  recipient : Text
  value : ℕ
  data : Text
  gasLimit : ℕ
  maxFeePerGas : ℕ
  maxPriorityFeePerGas : ℕ
deriving DecidableEq, Repr

structure SignedEthTx where
  raw : Text
  hash : Text
  /-- `addr.addChecksum(signed.sender)` -/
  sender : Text
  /-- `verifySignature()` -/
  verified : Bool

/-- What the library for Ethereum does. -/
structure EthLib where
  /-- `addr.fromPrivateKey` -/
  address : Bytes → Text
  /-- `Transaction.prepare` and `signBy`, which may throw. -/
  sign : EthTx → Bytes → Option SignedEthTx

/-- `n.toString(16)` -/
def hexText (n : ℕ) : Text := if n = 0 then [ch '0'] else (Nat.digits 16 n).reverse.map hexUnit

/-- `t.padStart(64, "0")` -/
def pad64 (t : Text) : Text := List.replicate (64 - t.length) (ch '0') ++ t

def transferCalldata (recipient : Text) (amount : ℕ) : Except SpendThrown Text := do
  spendCheck (isEthAddr recipient) "destination"
  spendCheck (0 < amount && amount < 2 ^ 256) "amount"
  return js "0xa9059cbb" ++ pad64 (lower (recipient.drop 2)) ++ pad64 (hexText amount)

/-- The data of a transaction: the transfer of a token, or none. -/
def spendData (asset : AssetInfo) (destination : Text) (amount : ℕ) : Except SpendThrown Text :=
  match asset.contract with
  | none => .ok []
  | some _ => transferCalldata destination amount

structure EthSpendRequest where
  network : WalletNetwork
  asset : AssetCode
  destination : Text
  amount : ℕ
  nonce : ℕ
  gasLimit : ℕ
  maxFeePerGas : ℕ
  maxPriorityFeePerGas : ℕ
  feeCap : ℕ
  maxFeePerGasCap : ℤ

structure EthSpend where
  raw : Text
  hash : Text
  sender : Text
  maxFee : ℕ

def buildEthSpend (A : AddressLib) (E : EthLib) (req : EthSpendRequest) (privateKey : Bytes) :
    Except SpendThrown EthSpend := do
  let chainId ← orRefuse req.network.chainId (.spend "network")
  spendCheck (req.network.chain = .ethereum) "network"
  let asset ← orRefuse (assetOf req.network req.asset.text) (.spend "asset")
  spendCheck (checkAddress A req.network req.destination = .ok req.destination) "destination"
  spendCheck (0 < req.amount) "amount"
  spendCheck (21000 ≤ req.gasLimit && req.gasLimit ≤ 200000) "gas_limit"
  spendCheck (req.maxPriorityFeePerGas ≤ req.maxFeePerGas) "priority_fee"
  spendCheck (req.maxFeePerGas ≤ req.maxFeePerGasCap) "fee_rate"
  let maxFee := req.gasLimit * req.maxFeePerGas
  spendCheck (maxFee ≤ req.feeCap) "fee_cap"
  let data ← spendData asset req.destination req.amount
  let tx : EthTx := ⟨chainId, req.nonce, asset.contract.getD req.destination,
    if asset.contract.isNone then req.amount else 0, data, req.gasLimit, req.maxFeePerGas,
    req.maxPriorityFeePerGas⟩
  let signed ← orRefuse (E.sign tx privateKey) .library
  spendCheck signed.verified "signature"
  return ⟨signed.raw, signed.hash, signed.sender, maxFee⟩

end Klick
