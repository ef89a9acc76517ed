-- Addresses (`lib/wallet/core/address.ts`). The decoding of Bitcoin addresses
-- and the checksum spelling of Ethereum come from libraries.
import Klick.Networks
import Klick.Coercion
import Klick.Fields

open Js

namespace Klick

/-- What the address libraries do. -/
structure AddressLib where
  /-- `Address(net).decode(value)` does not throw; the flag is the main network. -/
  btcDecodes : Bool → Text → Bool
  /-- `addr.isValid` -/
  ethIsValid : Text → Bool
  /-- `addr.addChecksum` -/
  ethAddChecksum : Text → Text

inductive AddressCheck
  | ok (address : Text)
  | format | checksum | network
deriving DecidableEq, Repr

/-- `toLowerCase` as far as it gives ASCII, which is all that the libraries decode: the
capital letters and the sign of the kelvin. -/
def lower (t : Text) : Text :=
  t.map fun u =>
    if 65 ≤ u.toNat && u.toNat ≤ 90 then UInt16.ofNat (u.toNat + 32)
    else if u.toNat = 0x212a then ch 'k'
    else u

/-- `toUpperCase` on ASCII. -/
def upper (t : Text) : Text :=
  t.map fun u => if 97 ≤ u.toNat && u.toNat ≤ 122 then UInt16.ofNat (u.toNat - 32) else u

/-- `[0-9a-fA-F]` -/
def isHexAny (u : UInt16) : Bool := isHexLower u || (65 ≤ u.toNat && u.toNat ≤ 70)

/-- `/^0x[0-9a-fA-F]{40}$/` -/
def isEthAddr (t : Text) : Bool :=
  t.take 2 = js "0x" && (t.drop 2).length = 40 && (t.drop 2).all isHexAny

/-- Bech32 in lower case, Base58 as it was typed. -/
def normalSpelling (bech32 : Text) (value : Text) : Text :=
  if (bech32 ++ js "1").isPrefixOf (lower value) then lower value else value

def checkAddress (A : AddressLib) (n : WalletNetwork) (raw : Text) : AddressCheck :=
  let value := trim raw
  match n.bech32 with
  | some bech32 =>
    if A.btcDecodes n.live value then .ok (normalSpelling bech32 value)
    else if A.btcDecodes (!n.live) value then .network
    else .format
  | none =>
    if !isEthAddr value then .format
    else
      let body := value.drop 2
      if body ≠ lower body && body ≠ upper body && !A.ethIsValid value then .checksum
      else .ok (A.ethAddChecksum (lower value))

/-! ## The shapes of addresses -/

/-- `[02-9ac-hj-np-z]` -/
def isBech32Unit (u : UInt16) : Bool :=
  (isDigit u && u ≠ ch '1') ||
    (97 ≤ u.toNat && u.toNat ≤ 122 && u ≠ ch 'b' && u ≠ ch 'i' && u ≠ ch 'o')

/-- `[1-9A-HJ-NP-Za-km-z]` -/
def isBase58Unit (u : UInt16) : Bool :=
  (isDigit u && u ≠ ch '0') ||
    (65 ≤ u.toNat && u.toNat ≤ 90 && u ≠ ch 'I' && u ≠ ch 'O') ||
    (97 ≤ u.toNat && u.toNat ≤ 122 && u ≠ ch 'l')

/-- `/^(?:tb1[02-9ac-hj-np-z]{8,87}|[mn2][1-9A-HJ-NP-Za-km-z]{25,34})$/`, for the main
network with `bc1` and `[13]` -/
def isBtcAddr (live : Bool) (t : Text) : Bool :=
  let bech32 := if live then js "bc1" else js "tb1"
  let first := if live then js "13" else js "mn2"
  (t.take 3 = bech32 && 8 ≤ (t.drop 3).length && (t.drop 3).length ≤ 87 &&
      (t.drop 3).all isBech32Unit) ||
    (t.take 1 ≠ [] && (t.take 1).all (· ∈ first) && 25 ≤ (t.drop 1).length &&
      (t.drop 1).length ≤ 34 && (t.drop 1).all isBase58Unit)

/-- The shape that the confirmation page asks of an address of the network. -/
def isAddress (n : WalletNetwork) (t : Text) : Bool :=
  match n.chain with
  | .bitcoin => isBtcAddr n.live t
  | .ethereum => isEthAddr t

/-- A visible unit that separates neither fields nor addresses. -/
def AddressUnit (u : UInt16) : Prop := isVisible u = true ∧ u ≠ bar ∧ u ≠ ch ','

/-- A class of visible units without the two separators. -/
theorem addressUnit_of_class {unit : UInt16 → Bool} (hvisible : ∀ u, unit u → isVisible u = true)
    (hbar : unit bar = false) (hcomma : unit (ch ',') = false) {u : UInt16}
    (h : unit u = true) : AddressUnit u := by
  refine ⟨hvisible u h, ?_, ?_⟩
  · rintro rfl
    rw [hbar] at h
    cases h
  · rintro rfl
    rw [hcomma] at h
    cases h

theorem isVisible_of_isBech32Unit (u : UInt16) (h : isBech32Unit u = true) :
    isVisible u = true := by
  simp only [isBech32Unit, isDigit, isVisible, Bool.or_eq_true, Bool.and_eq_true,
    decide_eq_true_eq] at h ⊢
  omega

theorem isVisible_of_isBase58Unit (u : UInt16) (h : isBase58Unit u = true) :
    isVisible u = true := by
  simp only [isBase58Unit, isDigit, isVisible, Bool.or_eq_true, Bool.and_eq_true,
    decide_eq_true_eq] at h ⊢
  omega

theorem isVisible_of_isHexAny (u : UInt16) (h : isHexAny u = true) : isVisible u = true := by
  simp only [isHexAny, isHexLower, isDigit, isVisible, Bool.or_eq_true, Bool.and_eq_true,
    decide_eq_true_eq] at h ⊢
  omega

/-- The units of an address, if its first units are some of a few and all others of a class. -/
theorem addressUnits {t start : Text} {k : ℕ} {unit : UInt16 → Bool}
    (hstart : ∀ u ∈ t.take k, u ∈ start) (hunits : ∀ u ∈ start, AddressUnit u)
    (hvisible : ∀ u, unit u → isVisible u = true)
    (hbar : unit bar = false) (hcomma : unit (ch ',') = false)
    (h : (t.drop k).all unit = true) : ∀ u ∈ t, AddressUnit u := by
  intro u hu
  rw [← List.take_append_drop k t] at hu
  rcases List.mem_append.mp hu with hu | hu
  · exact hunits u (hstart u hu)
  · exact addressUnit_of_class hvisible hbar hcomma (List.all_eq_true.mp h u hu)

theorem addressUnit_starts : ∀ u ∈ js "tbc123mn0x", AddressUnit u := by
  intro u hu
  have hall : ((js "tbc123mn0x").all fun u => isVisible u && u != bar && u != ch ',') = true := by
    decide
  simpa [AddressUnit, and_assoc] using List.all_eq_true.mp hall u hu

theorem isEthAddr_units {t : Text} (h : isEthAddr t = true) :
    (∀ u ∈ t, AddressUnit u) ∧ t.length ≤ 90 := by
  simp only [isEthAddr, Bool.and_eq_true, decide_eq_true_eq] at h
  obtain ⟨⟨hstart, hlen⟩, hunits⟩ := h
  constructor
  · refine addressUnits ?_ addressUnit_starts isVisible_of_isHexAny (by decide) (by decide) hunits
    intro u hu
    rw [hstart] at hu
    exact (by decide : js "0x" ⊆ js "tbc123mn0x") hu
  · rw [List.length_drop] at hlen
    omega

theorem isBtcAddr_units {live : Bool} {t : Text} (h : isBtcAddr live t = true) :
    (∀ u ∈ t, AddressUnit u) ∧ t.length ≤ 90 := by
  simp only [isBtcAddr, Bool.or_eq_true, Bool.and_eq_true, decide_eq_true_eq,
    List.length_drop] at h
  rcases h with ⟨⟨⟨hstart, -⟩, hlen⟩, hunits⟩ | ⟨⟨⟨⟨-, hstart⟩, -⟩, hlen⟩, hunits⟩
  · refine ⟨addressUnits ?_ addressUnit_starts isVisible_of_isBech32Unit (by decide) (by decide)
      hunits, by omega⟩
    intro u hu
    rw [hstart] at hu
    cases live
    · exact (by decide : js "tb1" ⊆ js "tbc123mn0x") hu
    · exact (by decide : js "bc1" ⊆ js "tbc123mn0x") hu
  · refine ⟨addressUnits ?_ addressUnit_starts isVisible_of_isBase58Unit (by decide) (by decide)
      hunits, by omega⟩
    intro u hu
    have hfirst := of_decide_eq_true (List.all_eq_true.mp hstart u hu)
    cases live
    · exact (by decide : js "mn2" ⊆ js "tbc123mn0x") hfirst
    · exact (by decide : js "13" ⊆ js "tbc123mn0x") hfirst

/-- An address has visible units and neither a bar nor a comma. -/
theorem isAddress_units {n : WalletNetwork} {t : Text} (h : isAddress n t = true) :
    (∀ u ∈ t, AddressUnit u) ∧ t.length ≤ 90 := by
  unfold isAddress at h
  split at h
  · exact isBtcAddr_units h
  · exact isEthAddr_units h

theorem fieldText_of_isAddress {n : WalletNetwork} {t : Text} (h : isAddress n t = true) :
    FieldText t := fun u hu => ⟨((isAddress_units h).1 u hu).1, ((isAddress_units h).1 u hu).2.1⟩

/-- The libraries decode only addresses of these shapes. -/
structure AddressShapes (A : AddressLib) : Prop where
  btc : ∀ (n : WalletNetwork) (bech32 t : Text), n.bech32 = some bech32 →
    normalSpelling bech32 t = t → A.btcDecodes n.live t = true → isBtcAddr n.live t = true
  eth : ∀ t, isEthAddr t = true → isEthAddr (A.ethAddChecksum (lower t)) = true

theorem trim_sublist (t : Text) : (trim t).Sublist t := by
  unfold trim
  refine List.Sublist.trans ?_ (List.dropWhile_sublist isTrimmed)
  rw [← List.reverse_reverse (t.dropWhile isTrimmed)]
  apply List.Sublist.reverse
  simpa using List.dropWhile_sublist isTrimmed

theorem normalSpelling_length (bech32 t : Text) :
    (normalSpelling bech32 t).length = t.length := by
  unfold normalSpelling lower
  split
  · simp
  · rfl

/-- A Bitcoin address that is its own normal spelling has no blanks around it. -/
theorem trim_of_normalSpelling {bech32 d : Text} (h : normalSpelling bech32 (trim d) = d) :
    trim d = d := by
  apply (trim_sublist d).eq_of_length
  have hlen := normalSpelling_length bech32 (trim d)
  rw [h] at hlen
  exact hlen.symm

/-- An address that is its own normal spelling has the shape. -/
theorem isAddress_of_check {A : AddressLib} (hA : AddressShapes A) {n : WalletNetwork} {d : Text}
    (h : checkAddress A n d = .ok d) : isAddress n d = true := by
  have hbtc : ∀ bech32, n.bech32 = some bech32 → isBtcAddr n.live d = true := by
    intro bech32 hb
    simp only [checkAddress, hb] at h
    split_ifs at h with h1
    have hn := AddressCheck.ok.inj h
    have ht := trim_of_normalSpelling hn
    rw [ht] at hn h1
    exact hA.btc n bech32 d hb hn h1
  have heth : n.bech32 = none → isEthAddr d = true := by
    intro hb
    simp only [checkAddress, hb] at h
    split_ifs at h with h1 h2
    have hs := hA.eth _ (by simpa using h1)
    rwa [AddressCheck.ok.inj h] at hs
  cases n with
  | bitcoinSignet => exact hbtc _ rfl
  | bitcoinMainnet => exact hbtc _ rfl
  | ethereumSepolia => exact heth rfl
  | ethereumMainnet => exact heth rfl

end Klick
