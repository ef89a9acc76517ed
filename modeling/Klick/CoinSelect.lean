-- The choice of coins for accounts of P2WPKH (`lib/wallet/core/coin-select.ts`):
-- the largest first, the fee from the estimated size, and change that is too
-- small goes into the fee.
import Klick.Coercion

open Js

namespace Klick

/-- `DUST_P2WPKH` -/
def dustP2wpkh : ℕ := 294

structure Utxo where
  txid : Text
  vout : ℕ
  value : ℕ
  branch : ℕ
  index : ℕ
deriving DecidableEq, Repr

/-- 10.5 vB of head, 68 for each input, 31 for each output. -/
def estimateVsize (inputs outputs : ℕ) : ℕ := ⌈(21 / 2 : ℚ) + 68 * inputs + 31 * outputs⌉₊

/-- The product is one of numbers, and so it is rounded before it is rounded up. -/
def feeFor (vsize : ℕ) (satPerVb : ℚ) : ℕ := ⌈fl (vsize * satPerVb)⌉₊

inductive Selection
  | picked (inputs : List Utxo) (fee change : ℕ)
  | insufficient
  | feeRate
deriving DecidableEq, Repr

/-- The loop over the coins that are left. -/
def pickCoins (amount : ℕ) (satPerVb : ℚ) (picked : List Utxo) (sum : ℕ) :
    List Utxo → Selection
  | [] => .insufficient
  | u :: us =>
    let picked := picked ++ [u]
    let sum := sum + u.value
    let withChange := feeFor (estimateVsize picked.length 2) satPerVb
    let noChange := feeFor (estimateVsize picked.length 1) satPerVb
    if amount + withChange ≤ sum then
      let change := sum - amount - withChange
      if dustP2wpkh ≤ change then .picked picked withChange change
      -- without change, the rest goes into the fee
      else .picked picked (sum - amount) 0
    else if amount + noChange ≤ sum then .picked picked (sum - amount) 0
    else pickCoins amount satPerVb picked sum us

/-- The largest coins first; coins of one value keep their order. -/
def sortCoins (utxos : List Utxo) : List Utxo := utxos.insertionSort fun a b => b.value ≤ a.value

def selectCoins (utxos : List Utxo) (amount : ℕ) (satPerVb : ℚ) : Selection :=
  if 0 < satPerVb then pickCoins amount satPerVb [] 0 (sortCoins utxos) else .feeRate

theorem estimateVsize_eq (inputs outputs : ℕ) :
    estimateVsize inputs outputs = 68 * inputs + 31 * outputs + 11 := by
  unfold estimateVsize
  rw [Nat.ceil_eq_iff (by omega)]
  push_cast
  constructor
  · have : (((68 * inputs + 31 * outputs + 11 - 1 : ℕ)) : ℚ) = 68 * inputs + 31 * outputs + 10 := by
      push_cast [show 68 * inputs + 31 * outputs + 11 - 1 = 68 * inputs + 31 * outputs + 10 by omega]
      ring
    linarith
  · linarith

end Klick
