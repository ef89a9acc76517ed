-- Bytes as texts: base64url without padding, and hexadecimal, as Node's
-- `Buffer` writes and reads them.
import Klick.Utf8

namespace Js

/-- `[A-Za-z0-9_-]` -/
def isBase64Unit (u : UInt16) : Bool :=
  isDigit u || (65 ≤ u.toNat && u.toNat ≤ 90) || (97 ≤ u.toNat && u.toNat ≤ 122) ||
    u = ch '_' || u = ch '-'

/-- The digit of six bits. -/
def base64Unit (d : ℕ) : UInt16 :=
  if d < 26 then UInt16.ofNat (65 + d)
  else if d < 52 then UInt16.ofNat (71 + d)
  else if d < 62 then UInt16.ofNat (d - 4)
  else if d = 62 then ch '-'
  else ch '_'

def base64Value (u : UInt16) : ℕ :=
  if 65 ≤ u.toNat && u.toNat ≤ 90 then u.toNat - 65
  else if 97 ≤ u.toNat && u.toNat ≤ 122 then u.toNat - 71
  else if isDigit u then u.toNat + 4
  else if u = ch '-' then 62
  else 63

/-- `toString("base64url")` -/
def toBase64Url : Bytes → Text
  | [] => []
  | [a] => [base64Unit (a.toNat / 4), base64Unit (a.toNat % 4 * 16)]
  | [a, b] => [base64Unit (a.toNat / 4), base64Unit (a.toNat % 4 * 16 + b.toNat / 16),
      base64Unit (b.toNat % 16 * 4)]
  | a :: b :: c :: bs => base64Unit (a.toNat / 4) ::
      base64Unit (a.toNat % 4 * 16 + b.toNat / 16) ::
      base64Unit (b.toNat % 16 * 4 + c.toNat / 64) :: base64Unit (c.toNat % 64) :: toBase64Url bs

/-- `Buffer.from(t, "base64url")`: a last single digit gives no byte. -/
def ofBase64Url : Text → Bytes
  | [] => []
  | [_] => []
  | [a, b] => [byte (base64Value a * 4 + base64Value b / 16)]
  | [a, b, c] => [byte (base64Value a * 4 + base64Value b / 16),
      byte (base64Value b % 16 * 16 + base64Value c / 4)]
  | a :: b :: c :: d :: t => byte (base64Value a * 4 + base64Value b / 16) ::
      byte (base64Value b % 16 * 16 + base64Value c / 4) ::
      byte (base64Value c % 4 * 64 + base64Value d) :: ofBase64Url t

/-- `Buffer.from(t, "hex")`, which stops before the first pair that is none. -/
def ofHex : Text → Bytes
  | a :: b :: t =>
    match hexValue a, hexValue b with
    | some m, some n => byte (m * 16 + n) :: ofHex t
    | _, _ => []
  | _ => []

theorem base64Value_unit : ∀ d < 64, base64Value (base64Unit d) = d := by decide

theorem byte_eq (b : UInt8) {n : ℕ} (h : n = b.toNat) : byte n = b := by
  rw [h]
  exact UInt8.ofNat_toNat

/-- The bytes are read as they were written. -/
theorem ofBase64Url_toBase64Url (bs : Bytes) : ofBase64Url (toBase64Url bs) = bs := by
  have hlt := fun b : UInt8 => b.toNat_lt
  fun_induction toBase64Url bs with
  | case1 => rfl
  | case2 a =>
    have ha := hlt a
    simp only [ofBase64Url]
    rw [base64Value_unit _ (by omega), base64Value_unit _ (by omega), byte_eq a (by omega)]
  | case3 a b =>
    have ha := hlt a
    have hb := hlt b
    simp only [ofBase64Url]
    rw [base64Value_unit _ (by omega), base64Value_unit _ (by omega),
      base64Value_unit _ (by omega), byte_eq a (by omega), byte_eq b (by omega)]
  | case4 a b c bs ih =>
    have ha := hlt a
    have hb := hlt b
    have hc := hlt c
    simp only [ofBase64Url]
    rw [base64Value_unit _ (by omega), base64Value_unit _ (by omega),
      base64Value_unit _ (by omega), base64Value_unit _ (by omega), byte_eq a (by omega),
      byte_eq b (by omega), byte_eq c (by omega), ih]

/-- Different bytes have different texts. -/
theorem toBase64Url_injective {as bs : Bytes} (h : toBase64Url as = toBase64Url bs) : as = bs := by
  rw [← ofBase64Url_toBase64Url as, h, ofBase64Url_toBase64Url]

end Js
