-- Signing a payout (`Signer.sign` of `signer/service.ts`): the guards of the
-- first signature, the replacements by a higher fee or by a return to the own
-- address, and the transaction that comes out of the plan.
import Klick.Commands

open Js

namespace Klick

/-! ## What is signed -/

/-- The payout of an intent, all fields of which are there. -/
structure Payout where
  network : WalletNetwork
  accountId : Text
  asset : AssetCode
  amount : ℕ
  destination : Text
  feeCap : ℕ

/-- A payout with account, asset and amount; the fee cap comes with them. -/
def payoutOf (i : Intent) : Option Payout :=
  match i.kind, i.accountId, i.asset, i.amount with
  | .payout, some accountId, some asset, some amount =>
    if accountId = [] then none
    else some ⟨i.network, accountId, asset, amount, i.destination, i.feeCap.getD 0⟩
  | _, _, _, _ => none

def IntentRecord.first (r : IntentRecord) : Option Signature :=
  r.signatures.find? fun s => s.signed.mode.isFirst

def IntentRecord.last (r : IntentRecord) : Option Signature := r.signatures.getLast?

/-- The time and the amount of a first signature of an asset count for a day. -/
def countsForDay (code : AssetCode) (now : ℤ) (r : IntentRecord) : ℕ :=
  match r.first with
  | some s => if s.signed.asset = code ∧ plus now (-86400) < s.time then s.signed.amount else 0
  | none => 0

def signedLast24h (s : SignerState) (code : AssetCode) (now : ℤ) : ℕ :=
  s.intents.sum (countsForDay code now)

def resultFields (e : Signed) : List (String × Value) :=
  [("intentId", .str e.intentId), ("mode", e.mode.toValue), ("raw", .str e.raw),
    ("txid", .str e.txid), ("fee", .str (decimal e.fee))] ++
  match e.spent with
  | .bitcoin outpoints changeIndex => [("outpoints", .arr (outpoints.map .str)),
      ("changeIndex", intOrNull (changeIndex.map fun i => (i : ℤ)))]
  | .ethereum nonce _ _ _ => [("nonce", .str (decimal nonce))]

/-- `resultOf` -/
def resultOf (e : Signed) : Value := object (resultFields e)

/-- The mode of a request: its text must be that of a mode. -/
def signModeOf (v : Value) : Except Failure SignMode := do
  let t ← coerced v.toText
  check (t ∈ SignMode.modes) (bad (js "mode"))
  orRefuse (SignMode.ofValue? v) (bad (js "mode"))

/-- An error of building a transaction. -/
def spent {α : Type} (v : Except SpendThrown α) : Except Failure α :=
  v.mapError fun e =>
    match e with
    | .spend code => .signer "spend" (some (js code))
    | .exn e => .thrown e
    | .key _ => .internal
    | .library => .internal

/-! ## The guards of the first signature -/

/-- `r.mandateId ? … : null` -/
def IntentRecord.namedMandate (r : IntentRecord) : Option Text := r.mandateId.filter (· ≠ [])

/-- The mandate of a payout is there, not revoked, and not over. -/
def checkMandate (s : SignerState) (r : IntentRecord) (now : ℤ) : Except Failure Unit :=
  match r.namedMandate with
  | none => .ok ()
  | some mandateId =>
    match s.mandates.get mandateId with
    | none => .error (refuse "mandate_revoked")
    | some m => do
      check (!m.revoked) (refuse "mandate_revoked")
      check (now < m.mandate.validUntil) (refuse "mandate_expired")

def checkFirst (P : Platform) (g : Signer) (policy : Policy) (r : IntentRecord) (i : Payout)
    (now : ℤ) : Except Failure Unit := do
  checkMandate g.state r now
  check (!r.signUntil.any (· < now)) (refuse "window_closed")
  check (quorum g.state r) (refuse "not_approved")
  let signableAt ← orRefuse r.signableAt (refuse "not_approved")
  check (signableAt ≤ now) (refuse "too_early")
  check (now ≤ r.signUntil.getD 0) (refuse "window_closed")
  let _ ← orRefuse (activeDestination g.state i.network i.destination now)
    (refuse "destination_inactive")
  checkNetwork P g i.network policy
  let allowed ← coerced (spendAllowed policy i.asset i.amount (signedLast24h g.state i.asset now))
  check (allowed = .ok) (refuse allowed.code)

def SignMode.isCancel : SignMode → Bool
  | cancel => true
  | _ => false

def SignMode.isBump : SignMode → Bool
  | bump => true
  | _ => false

/-- A replacement needs a first signature, and no fee is raised after a cancel. -/
def checkReplacement (r : IntentRecord) (mode : SignMode) :
    Except Failure (Signature × Signature) := do
  let first ← orRefuse r.first (refuse "not_signed")
  let last ← orRefuse r.last (refuse "not_signed")
  check (!(last.signed.mode.isCancel && mode.isBump)) (refuse "cancelled")
  return (first, last)

/-! ## Bitcoin -/

/-- `inputs.n` and `inputs.n.k` -/
def inputField (n : ℕ) (k : String) : Text := js "inputs." ++ decimal n ++ js k

def planInput (n : ℕ) (x : Value) : Except Failure BtcSpendInput := do
  let o ← obj x (inputField n "")
  let txid ← txidArg (arg o "txid") (inputField n ".txid")
  let vout ← int (arg o "vout") (inputField n ".vout") 0 100000
  let prevTxHex ← hexData (arg o "prevTxHex") (inputField n ".prevTxHex")
  let branch ← int (arg o "branch") (inputField n ".branch") 0 1
  let index ← int (arg o "index") (inputField n ".index") 0 (2 ^ 31 - 1)
  return ⟨txid, vout, prevTxHex, branch, index⟩

def planInputs (n : ℕ) : List Value → Except Failure (List BtcSpendInput)
  | [] => .ok []
  | x :: xs => do
    let input ← planInput n x
    let inputs ← planInputs (n + 1) xs
    return input :: inputs

/-- The inputs of a plan: an array, not empty and not too long. -/
def inputsOf (plan : Value) : Except Failure (List BtcSpendInput) :=
  match arg plan "inputs" with
  | .arr items => do
    check (items ≠ [] && items.length ≤ maxBtcInputs) (bad (js "inputs"))
    planInputs 0 items
  | _ => .error (bad (js "inputs"))

/-- The sum of the outputs that the inputs spend. -/
def prevTotal (B : BtcLib) : List BtcSpendInput → Except Failure ℕ
  | [] => .ok 0
  | x :: xs => do
    let prev ← orRefuse (B.fromRaw (ofHex x.prevTxHex)) .internal
    let out ← orRefuse prev.outputs[x.vout]? .internal
    let total ← prevTotal B xs
    return out.amount.getD 0 + total

/-- The next index of change. -/
def nextChangeOf (s : SignerState) (accountId : Text) : ℕ := (s.nextChange.get accountId).getD 0

/-- What a replacement takes over, if there is one. -/
abbrev Replaced := Option (Signature × Signature)

/-- The destination, the amount, and the index of the change or of the return. -/
structure BtcTarget where
  destination : Text
  amount : ℤ
  changeIndex : Option ℕ
  cancelIndex : Option ℕ

/-- No coin of a first signature is reserved for another intent. -/
def checkReserved (s : SignerState) (intentId : Text) (outpoints : List Text) :
    Except Failure Unit :=
  check (outpoints.all fun o => (s.reserved.get o).all (· = intentId)) (refuse "input_reserved")

/-- The coins of a replacement are those of the first signature. -/
def sameInputs (first : Signed) (outpoints : List Text) : Bool :=
  outpoints.length = first.outpoints.dedup.length && outpoints.all (· ∈ first.outpoints)

def btcTarget (P : Platform) (g : Signer) (r : IntentRecord) (i : Payout)
    (keyAt : ℕ → ℕ → Except KeyError BtcKey) (mode : SignMode) (inputs : List BtcSpendInput)
    (fee : ℕ) (replaced : Replaced) : Except Failure BtcTarget :=
  let outpoints := inputs.map (·.outpoint)
  match replaced with
  | none => do
    checkReserved g.state r.intentId outpoints
    return ⟨i.destination, i.amount, some (nextChangeOf g.state i.accountId), none⟩
  | some (first, last) => do
    check (sameInputs first.signed outpoints) (refuse "inputs_differ")
    check (last.signed.fee < fee) (refuse "fee_not_higher")
    let changeIndex := first.signed.changeIndex.getD (nextChangeOf g.state i.accountId)
    if mode.isCancel then do
      let total ← prevTotal P.btc inputs
      let key ← internal (keyAt 1 changeIndex)
      let amount : ℤ := total - fee
      check (0 < amount) (refuse "insufficient")
      return ⟨P.btc.p2wpkhAddress i.network.live key.pub, amount, none, some changeIndex⟩
    else return ⟨i.destination, i.amount, some changeIndex, none⟩

/-- What the signature of an intent carries beside the intent's own fields. -/
structure SpentDraft where
  txid : Text
  raw : Text
  fee : ℕ
  spent : Spent

def signBtc (P : Platform) (g : Signer) (r : IntentRecord) (i : Payout) (accountIndex : ℕ)
    (mode : SignMode) (plan : Value) (policy : Policy) (replaced : Replaced) :
    Except Failure SpentDraft := do
  let inputs ← inputsOf plan
  let fee ← uint (arg plan "fee") (js "fee")
  let keyAt ← internal (g.keys.btcKeys P.keys i.network accountIndex)
  let target ← btcTarget P g r i keyAt mode inputs fee replaced
  let s ← spent (buildBtcSpend P.addresses P.btc ⟨i.network, target.destination, target.amount,
    inputs, target.changeIndex, fee, i.feeCap, policy.feeCap "btcSatPerVb"⟩ keyAt)
  let changeIndex := if mode.isCancel then target.cancelIndex
    else if 0 < s.change then target.changeIndex else none
  return ⟨s.txid, s.raw, s.fee, .bitcoin (inputs.map (·.outpoint)) changeIndex⟩

/-! ## Ethereum -/

/-- `maxFeePerGas ?? 0`, `maxPriorityFeePerGas ?? 0` of a signature. -/
def feesOf (e : Signed) : ℕ × ℕ :=
  match e.spent with
  | .bitcoin .. => (0, 0)
  | .ethereum _ maxFeePerGas maxPriorityFeePerGas _ => (maxFeePerGas, maxPriorityFeePerGas)

/-- At first the nonce after the highest one, later that of the first signature
with fees that are higher by a tenth. -/
def checkNonce (s : SignerState) (accountId : Text) (nonce maxFeePerGas maxPriorityFeePerGas : ℕ)
    (replaced : Replaced) : Except Failure Unit :=
  match replaced with
  | none =>
    match s.nonces.get accountId with
    | none => .ok ()
    | some highest => check (nonce = highest + 1)
        (.signer "nonce" (some (js "expected " ++ decimal (highest + 1))))
  | some (first, last) => do
    check (first.signed.nonce = some nonce) (refuse "nonce_differs")
    let fees := feesOf last.signed
    check (fees.1 * 11 ≤ maxFeePerGas * 10 && fees.2 * 11 ≤ maxPriorityFeePerGas * 10)
      (refuse "fee_not_higher")

def signEth (P : Platform) (g : Signer) (i : Payout) (accountIndex : ℕ) (mode : SignMode)
    (plan : Value) (policy : Policy) (replaced : Replaced) : Except Failure SpentDraft := do
  let nonce ← uint (arg plan "nonce") (js "nonce")
  let gasLimit ← posUint (arg plan "gasLimit") (js "gasLimit")
  let maxFeePerGas ← posUint (arg plan "maxFeePerGas") (js "maxFeePerGas")
  let maxPriorityFeePerGas ← uint (arg plan "maxPriorityFeePerGas") (js "maxPriorityFeePerGas")
  let priv ← internal (g.keys.ethPrivateKey P.keys i.network accountIndex)
  checkNonce g.state i.accountId nonce maxFeePerGas maxPriorityFeePerGas replaced
  let maxGwei ← coerced (policy.feeCap "ethMaxFeeGwei").toBigInt
  let s ← spent (buildEthSpend P.addresses P.eth {
    network := i.network
    asset := if mode.isCancel then .eth else i.asset
    -- a cancel sends one Wei to the own address
    destination := if mode.isCancel then P.eth.address priv else i.destination
    amount := if mode.isCancel then 1 else i.amount
    nonce := nonce
    gasLimit := gasLimit
    maxFeePerGas := maxFeePerGas
    maxPriorityFeePerGas := maxPriorityFeePerGas
    feeCap := i.feeCap
    maxFeePerGasCap := maxGwei * gwei } priv)
  return ⟨s.hash, s.raw, s.maxFee, .ethereum nonce maxFeePerGas maxPriorityFeePerGas gasLimit⟩

/-! ## The command -/

/-- `signBtc` or `signEth`, by the chain of the network. -/
def signChain (P : Platform) (g : Signer) (r : IntentRecord) (i : Payout) (accountIndex : ℕ)
    (mode : SignMode) (plan : Value) (policy : Policy) (replaced : Replaced) :
    Except Failure SpentDraft :=
  match i.network.chain with
  | .bitcoin => signBtc P g r i accountIndex mode plan policy replaced
  | .ethereum => signEth P g i accountIndex mode plan policy replaced

/-- The signature of a plan, for an intent that passed its guards. -/
def signPlan (P : Platform) (g : Signer) (policy : Policy) (r : IntentRecord) (i : Payout)
    (account : AccountRecord) (mode : SignMode) (replaced : Replaced) (a : Value) :
    Except Failure Signed := do
  let plan ← obj (arg a "plan") (js "plan")
  let draft ← signChain P g r i account.index mode plan policy replaced
  return ⟨r.intentId, mode, account.accountId, i.network, i.asset, i.amount, draft.txid, draft.raw,
    draft.fee, draft.spent⟩

def sign (P : Platform) (g : Signer) (call : Call) : Except Failure Decision := do
  let a ← argsOf call
  let (_, policy) ← requireInit g.state
  requireNotFrozen g.state
  let r ← intentOf g.state (arg a "intentId")
  let mode ← signModeOf (arg a "mode")
  let i ← orRefuse (payoutOf r.intent) (refuse "not_payout")
  check (!r.cancelled && !r.vetoed) (refuse "intent_closed")
  let account ← orRefuse (g.state.accounts.get i.accountId) (refuse "account_unknown")
  let now := call.clock.now
  if mode.isFirst then
    match r.last with
    -- signed already: the same signature again, never a second payment
    | some last => return .answer (resultOf last.signed)
    | none => do
      checkFirst P g policy r i now
      let e ← signPlan P g policy r i account mode none a
      return .recordThen (.signed e) fun _ => resultOf e
  else do
    let (first, last) ← checkReplacement r mode
    let e ← signPlan P g policy r i account mode (some (first, last)) a
    return .recordThen (.signed e) fun _ => resultOf e

end Klick
