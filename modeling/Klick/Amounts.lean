-- Amounts as texts: what a person types and reads (`lib/wallet/core/amount.ts`), what the
-- confirmation page shows (`deploy/confirm/canonical.js`) and what a Bitcoin node reports
-- (`lib/wallet/rpc/bitcoin.ts`).
import Klick.Fields
import Klick.IsoDays
import Klick.LowerCase

open Js

namespace Klick.Amounts

/-! ## Digits and zeros -/

def zero : UInt16 := ch '0'

/-- `t.padStart(n, "0")` -/
def padStart (n : ℕ) (t : Text) : Text := List.replicate (n - t.length) zero ++ t

/-- `t.padEnd(n, "0")` -/
def padEnd (n : ℕ) (t : Text) : Text := t ++ List.replicate (n - t.length) zero

/-- `t.replace(/0+$/, "")` -/
def stripZeros (t : Text) : Text := t.rdropWhile (· = zero)

/-- A dot before each group of three digits: `t.replace(/\B(?=(\d{3})+(?!\d))/g, ".")`, for digits. -/
def grouped : Text → Text
  | [] => []
  | u :: t => u :: if t ≠ [] ∧ t.length % 3 = 0 then ch '.' :: grouped t else grouped t

/-- A minus before a negative amount. -/
def signed (neg : Bool) (t : Text) : Text := if neg then ch '-' :: t else t

/-- A whole part and a fraction that is left out when it is empty. -/
def withFraction (sep : UInt16) (whole frac : Text) : Text :=
  if frac = [] then whole else whole ++ sep :: frac

/-! ## What a person types and reads -/

inductive AmountError
  | format | precision | zero
deriving DecidableEq

/-- `/^(\d{1,30})(?:[.,](\d{1,36}))?$/` with its groups. -/
def readPattern (t : Text) : Option (Text × Option Text) :=
  let whole := t.takeWhile isDigit
  if whole.length = 0 ∨ 30 < whole.length then none
  else match t.dropWhile isDigit with
    | [] => some (whole, none)
    | sep :: frac =>
      if (sep = ch '.' ∨ sep = ch ',') ∧ frac ≠ [] ∧ frac.length ≤ 36 ∧ frac.all isDigit then
        some (whole, some frac)
      else none

def parseAmount (raw : Text) (decimals : ℕ) (allowZero : Bool) : Except AmountError ℕ :=
  match readPattern (trim raw) with
  | none => .error .format
  | some (whole, group) =>
    let frac := group.getD []
    if decimals < frac.length then .error .precision
    else
      let value := natOf whole * 10 ^ decimals + natOf (padEnd decimals frac)
      if value = 0 && !allowZero then .error .zero else .ok value

/-- The fraction of an amount without the zeros at its end. -/
def fracOf (abs decimals : ℕ) : Text :=
  stripZeros (padStart decimals (decimal (abs % 10 ^ decimals)))

def formatAmount (base : ℤ) (decimals : ℕ) : Text :=
  let abs := base.natAbs
  signed (base < 0)
    (withFraction (ch '.') (decimal (abs / 10 ^ decimals)) (fracOf abs decimals))

def formatAmountDe (base : ℤ) (decimals maxFraction : ℕ) : Text :=
  let canonical := formatAmount base decimals
  let neg := canonical.head? = some (ch '-')
  let parts := (if neg then canonical.drop 1 else canonical).splitOn (ch '.')
  let frac := stripZeros ((parts[1]?.getD []).take maxFraction)
  signed neg (withFraction (ch ',') (grouped (parts[0]?.getD [])) frac)

/-! ## What the confirmation page shows -/

/-- A value that is no amount throws. -/
def formatUnits (value : Text) (decimals : ℕ) : Option Text :=
  if isUint value then
    let padded := padStart (decimals + 1) value
    let whole := padded.take (padded.length - decimals)
    let frac := stripZeros (padded.drop (padded.length - decimals))
    some (withFraction (ch ',') (grouped whole) frac)
  else none

/-! ## What a node reports -/

/-- `/^(-?)(\d+)(?:\.(\d{1,8}))?$/` with its groups. -/
def readBtc (t : Text) : Option (Bool × Text × Option Text) :=
  let neg := t.head? = some (ch '-')
  let body := if neg then t.drop 1 else t
  let whole := body.takeWhile isDigit
  if whole = [] then none
  else match body.dropWhile isDigit with
    | [] => some (neg, whole, none)
    | sep :: frac =>
      if sep = ch '.' ∧ frac ≠ [] ∧ frac.length ≤ 8 ∧ frac.all isDigit then
        some (neg, whole, some frac)
      else none

/-- A text that is no amount throws. -/
def btcToSats (value : Text) : Option ℤ :=
  (readBtc (trim value)).map fun (neg, whole, group) =>
    let sats : ℤ := natOf whole * 100000000 + natOf (padEnd 8 (group.getD []))
    if neg then -sats else sats

def satsToBtc (sats : ℤ) : Text :=
  let abs := sats.natAbs
  signed (sats < 0)
    (decimal (abs / 100000000) ++ ch '.' :: padStart 8 (decimal (abs % 100000000)))

end Klick.Amounts
