-- Checks of the arguments of a command (`signer/validate.ts`): every breach
-- names the field.
import Klick.Checked
import Klick.NormalForm
import Klick.Fields
import Klick.Journal
import Klick.Networks
import Klick.Base64

open Js

namespace Klick

/-- What a command throws. -/
inductive Failure
  /-- `SignerError` -/
  | signer (code : String) (detail : Option Text)
  /-- What `Journal.append` throws before it writes. -/
  | journal (f : JournalFailure)
  /-- The writing of the line itself. -/
  | write
  | thrown (e : Exn)
  /-- An error of a library, or one that the signer does not expect. -/
  | internal
deriving DecidableEq, Repr

/-- `new SignerError(code)` -/
def refuse (code : String) : Failure := .signer code none

/-- `bad(field)` -/
def bad (field : Text) : Failure := .signer "bad_request" (some field)

/-- The outcome of a coercion that can throw. -/
def coerced {α : Type} (v : Except Exn α) : Except Failure α := v.mapError .thrown

/-- `obj(v, field)` -/
def obj (v : Value) (field : Text) : Except Failure Value :=
  match v with
  | .obj _ => .ok v
  | _ => .error (bad field)

/-- A text of a format. -/
def formatted (format : Text → Bool) (v : Value) (field : Text) : Except Failure Text :=
  match v with
  | .str t => if format t then .ok t else .error (bad field)
  | _ => .error (bad field)

def uuid (v : Value) (field : Text) : Except Failure Text := formatted isUuid v field

def hex128 (v : Value) (field : Text) : Except Failure Text := formatted (isHex 32) v field

/-- `txid`: `/^[0-9a-f]{64}$/` -/
def txidArg (v : Value) (field : Text) : Except Failure Text := formatted (isHex 64) v field

/-- `/^[0-9a-f]+$/` of even length, and not too long. -/
def isHexData (t : Text) : Bool :=
  t.length ≤ 400000 && t.length % 2 = 0 && t ≠ [] && t.all isHexLower

def hexData (v : Value) (field : Text) : Except Failure Text := formatted isHexData v field

def b64uStr (v : Value) (field : Text) (max : ℕ) : Except Failure Text :=
  formatted (fun t => t.length ≤ max && t ≠ [] && t.all isBase64Unit) v field

def uint (v : Value) (field : Text) : Except Failure ℕ := do
  return natOf (← formatted isUint v field)

def posUint (v : Value) (field : Text) : Except Failure ℕ := do
  let n ← uint v field
  check (0 < n) (bad field)
  return n

/-- `int(v, field, min, max)`, for bounds that are not negative. -/
def int (v : Value) (field : Text) (min max : ℕ) : Except Failure ℕ :=
  match v.int? with
  | some z => if min ≤ z ∧ z ≤ max then .ok z.toNat else .error (bad field)
  | none => .error (bad field)

/-- `network(v)` -/
def networkArg (v : Value) : Except Failure WalletNetwork :=
  match v with
  | .str t => orRefuse (WalletNetwork.ofKey? t) (bad (js "network"))
  | _ => .error (bad (js "network"))

/-- `asset(net, v)` -/
def assetArg (network : WalletNetwork) (v : Value) : Except Failure AssetCode :=
  match v with
  | .str t => do
    let a ← orRefuse (assetOf network t) (bad (js "asset"))
    return a.code
  | _ => .error (bad (js "asset"))

/-- A short text that can be printed, by the classes of Unicode. -/
def shortText (printable : Text → Bool) (v : Value) (field : Text) (max : ℕ) :
    Except Failure Text :=
  formatted (fun t => t ≠ [] && t.length ≤ max && printable t) v field

/-- `[a-z0-9]` -/
def isLowerAlnum (u : UInt16) : Bool := isDigit u || (97 ≤ u.toNat && u.toNat ≤ 122)

/-- `[a-z0-9]([a-z0-9-]{0,61}[a-z0-9])?` -/
def isHostLabel (t : Text) : Bool :=
  t ≠ [] && t.length ≤ 63 && (t.all fun u => isLowerAlnum u || u = ch '-') &&
    (t.take 1).all isLowerAlnum && (t.drop (t.length - 1)).all isLowerAlnum

/-- A name of two labels or more, or `localhost`. -/
def isRpId (t : Text) : Bool :=
  t = js "localhost" || (2 ≤ (t.splitOn (ch '.')).length && (t.splitOn (ch '.')).all isHostLabel)

def rpIdOf (v : Value) : Except Failure Text := formatted isRpId v (js "rpId")

/-- `/^(https:\/\/[a-z0-9.-]+|http:\/\/localhost(:[0-9]{1,5})?)$/` -/
def isOrigin (t : Text) : Bool :=
  ((js "https://").isPrefixOf t && t.drop 8 ≠ [] &&
      (t.drop 8).all fun u => isLowerAlnum u || u = ch '.' || u = ch '-') ||
    t = js "http://localhost" ||
    ((js "http://localhost:").isPrefixOf t && t.drop 17 ≠ [] && (t.drop 17).length ≤ 5 &&
      (t.drop 17).all isDigit)

def originOf (v : Value) : Except Failure Text := formatted isOrigin v (js "origin")

/-! ## What the checks let through -/

theorem formatted_eq_ok {format : Text → Bool} {v : Value} {field t : Text} :
    formatted format v field = .ok t ↔ v = .str t ∧ format t = true := by
  unfold formatted
  split
  · split_ifs with h
    · constructor
      · rintro ⟨⟩
        exact ⟨rfl, h⟩
      · rintro ⟨⟨⟩, -⟩
        rfl
    · constructor
      · rintro ⟨⟩
      · rintro ⟨⟨⟩, ht⟩
        exact absurd ht h
  · rename_i hne
    constructor
    · rintro ⟨⟩
    · rintro ⟨rfl, -⟩
      exact absurd rfl (hne t)

theorem obj_eq_ok {v w : Value} {field : Text} :
    obj v field = .ok w ↔ w = v ∧ ∃ fs, v = .obj fs := by
  unfold obj
  split
  · rename_i fs
    constructor
    · rintro ⟨⟩
      exact ⟨rfl, fs, rfl⟩
    · rintro ⟨rfl, -⟩
      rfl
  · rename_i hne
    constructor
    · rintro ⟨⟩
    · rintro ⟨-, fs, rfl⟩
      exact absurd rfl (hne fs)

/-- A number of at most 40 digits. -/
theorem uint_eq_ok {v : Value} {field : Text} {n : ℕ} (h : uint v field = .ok n) :
    n < 10 ^ 40 := by
  obtain ⟨t, ht, hn⟩ := bind_eq_ok.mp h
  obtain rfl := Except.ok.inj hn
  exact natOf_lt_of_isUint (formatted_eq_ok.1 ht).2

theorem posUint_eq_ok {v : Value} {field : Text} {n : ℕ} (h : posUint v field = .ok n) :
    0 < n ∧ n < 10 ^ 40 := by
  obtain ⟨m, hm, h⟩ := bind_eq_ok.mp h
  rw [check_bind] at h
  obtain ⟨hpos, h⟩ := h
  obtain rfl := Except.ok.inj h
  exact ⟨of_decide_eq_true hpos, uint_eq_ok hm⟩

end Klick
