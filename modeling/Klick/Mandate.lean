-- A mandate and its canonical text (`lib/wallet/core/mandate.ts`): a holder
-- lets a person pay out up to an amount to fixed addresses in a period.
import Klick.Intent

open Js

namespace Klick

/-! ## Mandates -/

/-- `MANDATE_PREFIX` -/
def mandatePrefix : Text := js "both-mandate/v1"

/-- `MANDATE_MAX_DAYS` -/
def mandateMaxDays : ℤ := 90

/-- `MANDATE_MAX_DESTINATIONS` -/
def mandateMaxDestinations : ℕ := 20

/-- The fields of a mandate before they are checked. -/
structure MandateFields where
  orgId : Text
  mandateId : Text
  grantee : Text
  network : Text
  chainId : Option ℕ
  asset : Text
  perPayout : ℕ
  total : ℕ
  destinations : List Text
  validFrom : ℤ
  validUntil : ℤ
  issuer : Text
  nonce : Text
deriving DecidableEq, Repr

structure Mandate where
  orgId : Text
  mandateId : Text
  grantee : Text
  network : WalletNetwork
  chainId : Option ℕ
  asset : AssetCode
  perPayout : ℕ
  total : ℕ
  destinations : List Text
  validFrom : ℤ
  validUntil : ℤ
  issuer : Text
  nonce : Text
deriving DecidableEq, Repr

def Mandate.fields (m : Mandate) : MandateFields where
  orgId := m.orgId
  mandateId := m.mandateId
  grantee := m.grantee
  network := m.network.key
  chainId := m.chainId
  asset := m.asset.text
  perPayout := m.perPayout
  total := m.total
  destinations := m.destinations
  validFrom := m.validFrom
  validUntil := m.validUntil
  issuer := m.issuer
  nonce := m.nonce

def comma : UInt16 := ch ','

/-- `[...new Set(list)].sort()` -/
def uniqueSorted (ts : List Text) : List Text :=
  ts.eraseDups.insertionSort fun a b => textLe a b = true

/-- `validate`, which gives the fields their types. -/
def validateMandate (A : AddressLib) (f : MandateFields) : Except String Mandate := do
  check (isUuid f.orgId) "org"
  check (isUuid f.mandateId) "id"
  check (isUuid f.grantee) "grantee"
  check (isUuid f.issuer) "issuer"
  check (f.grantee ≠ f.issuer) "self"
  check (isHex 32 f.nonce) "nonce"
  let network ← orRefuse (WalletNetwork.ofKey? f.network) "network"
  check (f.chainId = network.chainId) "chain"
  let asset ← orRefuse (assetOf network f.asset) "asset"
  check (0 < f.perPayout && 0 < f.total) "amount"
  check (f.perPayout ≤ f.total) "amount"
  check (0 < f.destinations.length && f.destinations.length ≤ mandateMaxDestinations)
    "destinations"
  check (f.destinations.all fun d => checkAddress A network d = .ok d) "destination"
  check (join comma (uniqueSorted f.destinations) = join comma f.destinations) "destinations"
  check (isSeconds (intText f.validFrom)) "from"
  check (isSeconds (intText f.validUntil)) "until"
  check (f.validFrom < f.validUntil) "until"
  check (f.validUntil - f.validFrom ≤ mandateMaxDays * 86400) "until"
  return {
    orgId := f.orgId
    mandateId := f.mandateId
    grantee := f.grantee
    network := network
    chainId := f.chainId
    asset := asset.code
    perPayout := f.perPayout
    total := f.total
    destinations := f.destinations
    validFrom := f.validFrom
    validUntil := f.validUntil
    issuer := f.issuer
    nonce := f.nonce }

/-! ## The canonical text -/

def Mandate.texts (m : Mandate) : List Text := [
  mandatePrefix, m.orgId, m.mandateId, m.grantee, m.network.key, optField decimal m.chainId,
  m.asset.text, decimal m.perPayout, decimal m.total, join comma m.destinations,
  intText m.validFrom, intText m.validUntil, m.issuer, m.nonce]

def Mandate.text (m : Mandate) : Text := join bar m.texts

def encodeMandate (A : AddressLib) (m : Mandate) : Except String Text := do
  let _ ← validateMandate A m.fields
  return m.text

def parseMandate (A : AddressLib) (text : Text) : Except String Mandate := do
  check (isVisibleText text && text.length ≤ 2400) "text"
  match text.splitOn bar with
  | [start, orgId, mandateId, grantee, network, chainId, asset, perPayout, total, destinations,
      validFrom, validUntil, issuer, nonce] => do
    check (start = mandatePrefix) "format"
    let chainId ← optional isPosint chainId "chain"
    check (isPosint perPayout) "amount"
    check (isPosint total) "amount"
    check (isSeconds validFrom) "from"
    check (isSeconds validUntil) "until"
    let mandate ← validateMandate A {
      orgId := orgId
      mandateId := mandateId
      grantee := grantee
      network := network
      chainId := chainId.map natOf
      asset := asset
      perPayout := natOf perPayout
      total := natOf total
      destinations := destinations.splitOn comma
      validFrom := natOf validFrom
      validUntil := natOf validUntil
      issuer := issuer
      nonce := nonce }
    let again ← encodeMandate A mandate
    check (again = text) "canonical"
    return mandate
  | _ => .error "format"

/-! ## What a mandate covers -/

inductive MandateUse
  | ok | grantee | network | asset | destination | notYet | expired | perPayout | total
deriving DecidableEq, Repr

/-- A payout that is to run on a mandate. -/
structure MandatePayout where
  grantee : Text
  network : WalletNetwork
  asset : AssetCode
  amount : ℕ
  destination : Text
  /-- The time, in seconds. -/
  time : ℤ
  used : ℕ

def mandateCovers (m : Mandate) (p : MandatePayout) : MandateUse :=
  if p.grantee ≠ m.grantee then .grantee
  else if p.network ≠ m.network then .network
  else if p.asset ≠ m.asset then .asset
  else if p.destination ∉ m.destinations then .destination
  else if p.time < m.validFrom then .notYet
  else if m.validUntil ≤ p.time then .expired
  else if m.perPayout < p.amount then .perPayout
  else if m.total < p.used + p.amount then .total
  else .ok

theorem mandateCovers_eq_ok {m : Mandate} {p : MandatePayout} :
    mandateCovers m p = .ok ↔ p.grantee = m.grantee ∧ p.network = m.network ∧
      p.asset = m.asset ∧ p.destination ∈ m.destinations ∧ m.validFrom ≤ p.time ∧
      p.time < m.validUntil ∧ p.amount ≤ m.perPayout ∧ p.used + p.amount ≤ m.total := by
  unfold mandateCovers
  split_ifs <;> simp_all

/-! ## Valid mandates -/

structure ValidMandate (A : AddressLib) (m : Mandate) : Prop where
  org : isUuid m.orgId = true
  mandateId : isUuid m.mandateId = true
  grantee : isUuid m.grantee = true
  issuer : isUuid m.issuer = true
  notSelf : m.grantee ≠ m.issuer
  nonce : isHex 32 m.nonce = true
  chain : m.chainId = m.network.chainId
  asset : (assetOf m.network m.asset.text).isSome
  perPayout : 0 < m.perPayout
  total : m.perPayout ≤ m.total
  count : 0 < m.destinations.length ∧ m.destinations.length ≤ mandateMaxDestinations
  destinations : ∀ d ∈ m.destinations, checkAddress A m.network d = .ok d
  sorted : join comma (uniqueSorted m.destinations) = join comma m.destinations
  fromSeconds : isSeconds (intText m.validFrom) = true
  untilSeconds : isSeconds (intText m.validUntil) = true
  order : m.validFrom < m.validUntil
  days : m.validUntil - m.validFrom ≤ mandateMaxDays * 86400

/-- Validation accepts exactly the fields of valid mandates. -/
theorem validateMandate_eq_ok {A : AddressLib} {f : MandateFields} {m : Mandate} :
    validateMandate A f = .ok m ↔ f = m.fields ∧ ValidMandate A m := by
  simp only [validateMandate, check_bind, orRefuse_bind, WalletNetwork.ofKey?_eq_some,
    decide_eq_true_eq, Bool.and_eq_true, List.all_eq_true]
  constructor
  · rintro ⟨h1, h2, h3, h4, h5, h6, n, hn, h7, a, ha, ⟨h8, -⟩, h9, h10, h11, h12, h13, h14, h15,
      h16, h⟩
    obtain rfl := Except.ok.inj h
    have hcode := assetOf_code ha
    refine ⟨?_, h1, h2, h3, h4, h5, h6, h7, ?_, h8, h9, h10, h11, h12, h13, h14, h15, h16⟩
    · cases f
      simp_all [Mandate.fields]
    · rw [hcode, ha]
      rfl
  · rintro ⟨rfl, hv⟩
    obtain ⟨a, ha⟩ := Option.isSome_iff_exists.mp hv.asset
    have hcode : a.code = m.asset := AssetCode.text_injective (assetOf_code ha)
    have htotal : 0 < m.total := Nat.lt_of_lt_of_le hv.perPayout hv.total
    exact ⟨hv.org, hv.mandateId, hv.grantee, hv.issuer, hv.notSelf, hv.nonce, m.network, rfl,
      hv.chain, a, ha, ⟨hv.perPayout, htotal⟩, hv.total, hv.count, hv.destinations, hv.sorted,
      hv.fromSeconds, hv.untilSeconds, hv.order, hv.days, by rw [hcode]; rfl⟩

theorem Mandate.fields_injective {m n : Mandate} (h : m.fields = n.fields) : m = n := by
  have hnet : m.network = n.network :=
    WalletNetwork.key_injective (congrArg MandateFields.network h)
  have hasset : m.asset = n.asset := AssetCode.text_injective (congrArg MandateFields.asset h)
  cases m
  cases n
  simp_all [Mandate.fields]

/-- A valid mandate has a text, and no other has one. -/
theorem encodeMandate_eq_ok {A : AddressLib} {m : Mandate} {t : Text} :
    encodeMandate A m = .ok t ↔ ValidMandate A m ∧ t = m.text := by
  unfold encodeMandate
  rw [bind_eq_ok]
  constructor
  · rintro ⟨n, hn, ht⟩
    obtain ⟨hf, hv⟩ := validateMandate_eq_ok.1 hn
    obtain rfl := Mandate.fields_injective hf
    exact ⟨hv, (Except.ok.inj ht).symm⟩
  · rintro ⟨hv, rfl⟩
    exact ⟨m, validateMandate_eq_ok.2 ⟨rfl, hv⟩, rfl⟩

/-! ## Reading the text back -/

/-- The amounts have at most 40 digits, which is all that the parser reads. -/
def Mandate.Fits (m : Mandate) : Prop := m.total < 10 ^ 40

/-- The addresses of a valid mandate have the shape and are split apart again. -/
theorem ValidMandate.addresses {A : AddressLib} (hA : AddressShapes A) {m : Mandate}
    (hv : ValidMandate A m) :
    (∀ d ∈ m.destinations, isAddress m.network d = true) ∧
    (join comma m.destinations).splitOn comma = m.destinations ∧
    FieldText (join comma m.destinations) ∧ (join comma m.destinations).length ≤ 1819 := by
  have hshape : ∀ d ∈ m.destinations, isAddress m.network d = true :=
    fun d hd => isAddress_of_check hA (hv.destinations d hd)
  have hne : m.destinations ≠ [] := List.length_pos_iff.mp hv.count.1
  refine ⟨hshape, ?_, ?_, ?_⟩
  · apply List.splitOn_intercalate _ _ hne
    intro d hd hcomma
    exact ((isAddress_units (hshape d hd)).1 _ hcomma).2.2 rfl
  · intro u hu
    rcases mem_join hu with rfl | ⟨d, hd, hu⟩
    · decide
    · exact fieldText_of_isAddress (hshape d hd) u hu
  · have hlen := @join_length comma m.destinations hne
    have hsum : (m.destinations.map List.length).sum
        ≤ (m.destinations.map List.length).length • 90 := by
      apply List.sum_le_card_nsmul
      intro k hk
      obtain ⟨d, hd, rfl⟩ := List.mem_map.mp hk
      exact (isAddress_units (hshape d hd)).2
    have hcount := hv.count.2
    simp only [mandateMaxDestinations, List.length_map, smul_eq_mul] at hcount hsum
    omega

/-- No field of a valid mandate has a bar, and all of them together are short. -/
theorem ValidMandate.texts {A : AddressLib} (hA : AddressShapes A) {m : Mandate}
    (hv : ValidMandate A m) (hf : m.Fits) :
    (∀ t ∈ m.texts, FieldText t) ∧ (m.texts.map List.length).sum ≤ 2387 := by
  obtain ⟨-, -, hdests, hlen⟩ := hv.addresses hA
  have hper : m.perPayout < 10 ^ 40 := Nat.lt_of_le_of_lt hv.total hf
  have h1 := fieldText_uuid hv.org
  have h2 := fieldText_uuid hv.mandateId
  have h3 := fieldText_uuid hv.grantee
  have h4 := fieldText_network m.network
  have h5 := fieldText_chainId m.network
  rw [← hv.chain] at h5
  have h6 := fieldText_asset m.asset
  have h7 := fieldText_amount hper
  have h8 := fieldText_amount hf
  have h9 := fieldText_seconds hv.fromSeconds
  have h10 := fieldText_seconds hv.untilSeconds
  have h11 := fieldText_uuid hv.issuer
  have h12 := fieldText_hex hv.nonce
  constructor
  · intro t ht
    simp only [Mandate.texts, List.mem_cons, List.not_mem_nil, or_false] at ht
    rcases ht with rfl | rfl | rfl | rfl | rfl | rfl | rfl | rfl | rfl | rfl | rfl | rfl | rfl |
      rfl
    · exact fieldText_of_all (by decide)
    · exact h1.1
    · exact h2.1
    · exact h3.1
    · exact h4.1
    · exact h5.1
    · exact h6.1
    · exact h7.1
    · exact h8.1
    · exact hdests
    · exact h9.1
    · exact h10.1
    · exact h11.1
    · exact h12.1
  · have hstart : mandatePrefix.length = 15 := rfl
    simp only [Mandate.texts, List.map_cons, List.map_nil, List.sum_cons, List.sum_nil]
    omega

/-- The text of a valid mandate splits into its fields and is short enough to be read. -/
theorem ValidMandate.splits {A : AddressLib} (hA : AddressShapes A) {m : Mandate}
    (hv : ValidMandate A m) (hf : m.Fits) :
    m.text.splitOn bar = m.texts ∧ isVisibleText m.text = true ∧ m.text.length ≤ 2400 := by
  obtain ⟨htexts, hsum⟩ := hv.texts hA hf
  have hne : m.texts ≠ [] := List.cons_ne_nil _ _
  have hlen := @join_length bar m.texts hne
  have hcount : m.texts.length = 14 := rfl
  rw [hcount] at hlen
  have hsome : join bar m.texts ≠ [] := by
    intro h
    rw [h, List.length_nil] at hlen
    omega
  exact ⟨splitOn_join hne htexts, isVisibleText_join hsome htexts, by unfold Mandate.text; omega⟩

/-- A valid mandate within the digits is read back from its text. -/
theorem ValidMandate.parse {A : AddressLib} (hA : AddressShapes A) {m : Mandate}
    (hv : ValidMandate A m) (hf : m.Fits) : parseMandate A m.text = .ok m := by
  obtain ⟨hsplit, hvisible, hlen⟩ := hv.splits hA hf
  obtain ⟨-, hdests, -, -⟩ := hv.addresses hA
  have hper : m.perPayout < 10 ^ 40 := Nat.lt_of_le_of_lt hv.total hf
  have htotal : 0 < m.total := Nat.lt_of_lt_of_le hv.perPayout hv.total
  have hcheck : (isVisibleText m.text && decide (m.text.length ≤ 2400)) = true := by
    simp [hvisible, hlen]
  have hchain := optional_chainId m.network
  rw [← hv.chain] at hchain
  have hfields : validateMandate A m.fields = .ok m := validateMandate_eq_ok.2 ⟨rfl, hv⟩
  have hagain : encodeMandate A m = .ok m.text := encodeMandate_eq_ok.2 ⟨hv, rfl⟩
  unfold parseMandate
  rw [check_bind, hsplit]
  refine ⟨hcheck, ?_⟩
  simp only [Mandate.texts]
  rw [check_bind, hchain]
  refine ⟨by decide, ?_⟩
  rw [bind_eq_ok]
  refine ⟨_, rfl, ?_⟩
  rw [check_bind, check_bind, check_bind, check_bind]
  refine ⟨isPosint_decimal hv.perPayout hper, isPosint_decimal htotal hf, hv.fromSeconds,
    hv.untilSeconds, ?_⟩
  rw [map_natOf_decimal, natOf_decimal, natOf_decimal, natOf_seconds hv.fromSeconds,
    natOf_seconds hv.untilSeconds, hdests]
  refine bind_eq_ok.mpr ⟨m, hfields, bind_eq_ok.mpr ⟨m.text, hagain, ?_⟩⟩
  rw [check_bind]
  exact ⟨by simp, rfl⟩

/-- What is read is valid, and the text is its only one. -/
theorem of_parseMandate {A : AddressLib} {t : Text} {m : Mandate} (h : parseMandate A t = .ok m) :
    ValidMandate A m ∧ m.Fits ∧ t = m.text := by
  unfold parseMandate at h
  rw [check_bind] at h
  obtain ⟨-, h⟩ := h
  split at h
  · rename_i start orgId mandateId grantee network chainId asset perPayout total destinations
      validFrom validUntil issuer nonce hsplit
    rw [check_bind] at h
    obtain ⟨-, h⟩ := h
    obtain ⟨chainId, hchain, h⟩ := bind_eq_ok.mp h
    rw [check_bind, check_bind, check_bind, check_bind] at h
    obtain ⟨-, htotal, -, -, h⟩ := h
    obtain ⟨n, hn, h⟩ := bind_eq_ok.mp h
    obtain ⟨again, hagain, h⟩ := bind_eq_ok.mp h
    rw [check_bind] at h
    obtain ⟨htext, h⟩ := h
    obtain rfl := Except.ok.inj h
    obtain ⟨hfields, -⟩ := validateMandate_eq_ok.1 hn
    obtain ⟨hv, rfl⟩ := encodeMandate_eq_ok.1 hagain
    refine ⟨hv, ?_, (of_decide_eq_true htext).symm⟩
    have htot : natOf total = n.total := congrArg MandateFields.total hfields
    rw [Mandate.Fits, ← htot]
    exact natOf_lt_of_isPosint htotal
  · cases h

/-- **The texts that are read** are those of the valid mandates with at most 40 digits. -/
theorem parseMandate_eq_ok {A : AddressLib} (hA : AddressShapes A) {t : Text} {m : Mandate} :
    parseMandate A t = .ok m ↔ ValidMandate A m ∧ m.Fits ∧ t = m.text := by
  constructor
  · exact of_parseMandate
  · rintro ⟨hv, hf, rfl⟩
    exact hv.parse hA hf

end Klick
