-- The confirmation page reads the canonical texts itself, in the browser
-- (`deploy/confirm/canonical.js`): what it shows is what the signer reads.
import Klick.Mandate

open Js

namespace Klick

namespace Confirm

/-! ## The tables of the page -/

/-- What the page knows of a network. -/
structure PageNetwork where
  chainId : Option ℕ
  live : Bool
deriving DecidableEq, Repr

/-- `NETWORKS` -/
def networks : List (Text × PageNetwork) := [
  (js "bitcoin_signet", ⟨none, false⟩),
  (js "bitcoin_mainnet", ⟨none, true⟩),
  (js "ethereum_sepolia", ⟨some 11155111, false⟩),
  (js "ethereum_mainnet", ⟨some 1, true⟩)]

/-- The names in `ASSETS`. -/
def assets : List (Text × List Text) := [
  (js "bitcoin_signet", [js "BTC"]),
  (js "bitcoin_mainnet", [js "BTC"]),
  (js "ethereum_sepolia", [js "ETH", js "USDC", js "EURC"]),
  (js "ethereum_mainnet", [js "ETH", js "USDC", js "EURC"])]

/-- `Object.hasOwn(ASSETS[network], asset)` -/
def hasAsset (network asset : Text) : Bool := (lookup network assets).any (asset ∈ ·)

/-- `BTC_ADDR` or `ETH_ADDR`, by the name of the network. -/
def addressShape (network : Text) (net : PageNetwork) (d : Text) : Bool :=
  if (js "bitcoin").isPrefixOf network then isBtcAddr net.live d else isEthAddr d

/-! ## Intents -/

structure PageIntent where
  kind : Text
  orgId : Text
  accountId : Option Text
  network : Text
  chainId : Option ℕ
  asset : Option Text
  amount : Option Text
  destination : Text
  destinationActiveSince : Option ℕ
  feeCap : Option Text
  initiator : Text
  intentId : Text
  nonce : Text
  expiresAt : ℕ
deriving DecidableEq, Repr

/-- `v === NONE ? null : v` -/
def present (v : Text) : Option Text := if v = noField then none else some v

/-- The checks of the fields that only a payout has. -/
def checkKind (kind network accountId asset amount feeCap activeSince : Text) :
    Except String Unit :=
  if kind = js "payout" then do
    check (isUuid accountId) "account"
    check (hasAsset network asset) "asset"
    check (isPosint amount) "amount"
    check (isUint feeCap) "fee"
    check (isSeconds activeSince) "active"
  else
    check (accountId = noField && asset = noField && amount = noField && feeCap = noField &&
      activeSince = noField) "whitelist"

def parseIntent (text : Text) : Except String PageIntent := do
  check (isVisibleText text && text.length ≤ 600) "text"
  match text.splitOn bar with
  | [start, kind, orgId, accountId, network, chainId, asset, amount, destination, activeSince,
      feeCap, initiator, intentId, nonce, expiresAt] => do
    check (start = js "klick-wallet/v1") "format"
    check (kind = js "payout" || kind = js "whitelist") "kind"
    check (isUuid orgId) "org"
    check (isUuid initiator) "initiator"
    check (isHex 32 intentId) "id"
    check (isHex 32 nonce) "nonce"
    check (isSeconds expiresAt) "expires"
    let net ← orRefuse (lookup network networks) "network"
    check (chainId = optField decimal net.chainId) "chain"
    check (addressShape network net destination) "destination"
    checkKind kind network accountId asset amount feeCap activeSince
    return {
      kind := kind
      orgId := orgId
      accountId := present accountId
      network := network
      chainId := (present chainId).map natOf
      asset := present asset
      amount := present amount
      destination := destination
      destinationActiveSince := (present activeSince).map natOf
      feeCap := present feeCap
      initiator := initiator
      intentId := intentId
      nonce := nonce
      expiresAt := natOf expiresAt }
  | _ => .error "format"

/-! ## Mandates -/

structure PageMandate where
  orgId : Text
  mandateId : Text
  grantee : Text
  network : Text
  chainId : Option ℕ
  asset : Text
  perPayout : Text
  total : Text
  destinations : List Text
  validFrom : ℕ
  validUntil : ℕ
  issuer : Text
  nonce : Text
deriving DecidableEq, Repr

def parseMandate (text : Text) : Except String PageMandate := do
  check (isVisibleText text && text.length ≤ 2400) "text"
  match text.splitOn bar with
  | [start, orgId, mandateId, grantee, network, chainId, asset, perPayout, total, destinations,
      validFrom, validUntil, issuer, nonce] => do
    check (start = js "both-mandate/v1") "format"
    check (isUuid orgId) "org"
    check (isUuid mandateId) "id"
    check (isUuid grantee) "grantee"
    check (isUuid issuer) "issuer"
    check (grantee ≠ issuer) "self"
    check (isHex 32 nonce) "nonce"
    let net ← orRefuse (lookup network networks) "network"
    check (chainId = optField decimal net.chainId) "chain"
    check (hasAsset network asset) "asset"
    check (isPosint perPayout && isPosint total) "amount"
    check (natOf perPayout ≤ natOf total) "amount"
    let list := destinations.splitOn comma
    check (0 < list.length && list.length ≤ 20) "destinations"
    check (list.all (addressShape network net)) "destination"
    check (join comma (uniqueSorted list) = destinations) "destinations"
    check (isSeconds validFrom) "from"
    check (isSeconds validUntil) "until"
    check (natOf validFrom < natOf validUntil) "until"
    check (natOf validUntil - natOf validFrom ≤ 90 * 86400) "until"
    return {
      orgId := orgId
      mandateId := mandateId
      grantee := grantee
      network := network
      chainId := (present chainId).map natOf
      asset := asset
      perPayout := perPayout
      total := total
      destinations := list
      validFrom := natOf validFrom
      validUntil := natOf validUntil
      issuer := issuer
      nonce := nonce }
  | _ => .error "format"

/-! ## The same tables -/

/-- The page has the networks of the signer. -/
theorem lookup_networks {k : Text} {net : PageNetwork} :
    lookup k networks = some net ↔ ∃ n : WalletNetwork, k = n.key ∧ net = ⟨n.chainId, n.live⟩ := by
  constructor
  · intro h
    simp only [networks, lookup] at h
    split_ifs at h with h1 h2 h3 h4
    · exact ⟨.bitcoinSignet, h1.symm, (Option.some.inj h).symm⟩
    · exact ⟨.bitcoinMainnet, h2.symm, (Option.some.inj h).symm⟩
    · exact ⟨.ethereumSepolia, h3.symm, (Option.some.inj h).symm⟩
    · exact ⟨.ethereumMainnet, h4.symm, (Option.some.inj h).symm⟩
  · rintro ⟨n, rfl, rfl⟩
    cases n <;> decide +kernel

/-- The page has the assets of the signer. -/
theorem hasAsset_key (n : WalletNetwork) (t : Text) :
    hasAsset n.key t = (assetOf n t).isSome := by
  have hnames : lookup n.key assets = some ((Klick.assets n).map fun a => a.code.text) := by
    cases n <;> decide +kernel
  unfold hasAsset assetOf
  rw [hnames, Bool.eq_iff_iff, List.find?_isSome]
  simp

theorem addressShape_key (n : WalletNetwork) (d : Text) :
    addressShape n.key ⟨n.chainId, n.live⟩ d = isAddress n d := by
  cases n <;> rfl

/-! ## What the page shows -/

/-- Every field of the page has the value of the signer's. -/
structure ShowsIntent (p : PageIntent) (i : Intent) : Prop where
  kind : p.kind = i.kind.text
  orgId : p.orgId = i.orgId
  accountId : p.accountId = i.accountId
  network : p.network = i.network.key
  chainId : p.chainId = i.chainId
  asset : p.asset = i.asset.map AssetCode.text
  amount : p.amount = i.amount.map decimal
  destination : p.destination = i.destination
  destinationActiveSince : p.destinationActiveSince.map Int.ofNat = i.destinationActiveSince
  feeCap : p.feeCap = i.feeCap.map decimal
  initiator : p.initiator = i.initiator
  intentId : p.intentId = i.intentId
  nonce : p.nonce = i.nonce
  expiresAt : (p.expiresAt : ℤ) = i.expiresAt

/-- Every field of the page has the value of the signer's. -/
structure ShowsMandate (p : PageMandate) (m : Mandate) : Prop where
  orgId : p.orgId = m.orgId
  mandateId : p.mandateId = m.mandateId
  grantee : p.grantee = m.grantee
  network : p.network = m.network.key
  chainId : p.chainId = m.chainId
  asset : p.asset = m.asset.text
  perPayout : p.perPayout = decimal m.perPayout
  total : p.total = decimal m.total
  destinations : p.destinations = m.destinations
  validFrom : (p.validFrom : ℤ) = m.validFrom
  validUntil : (p.validUntil : ℤ) = m.validUntil
  issuer : p.issuer = m.issuer
  nonce : p.nonce = m.nonce

/-- `checkAddress` neither rejects nor re-spells any of the addresses. -/
def NormalAddresses (A : AddressLib) (network : Text) (ds : List Text) : Prop :=
  ∀ n, WalletNetwork.ofKey? network = some n → ∀ d ∈ ds, checkAddress A n d = .ok d

theorem present_optField {α : Type} {text : α → Text} {v : Option α}
    (h : ∀ a, v = some a → text a ≠ noField) : present (optField text v) = v.map text :=
  presentField_optField h

theorem present_chainId (n : WalletNetwork) :
    (present (optField decimal n.chainId)).map natOf = n.chainId := by
  rw [present_optField fun c _ => ne_noField_of_digits (decimal_digits c), map_natOf_decimal]

theorem chain_check {n : WalletNetwork} {c : Option ℕ} (h : c = n.chainId) :
    decide (optField decimal c = optField decimal n.chainId) = true := by
  rw [h, decide_eq_true_eq]

theorem checkKind_payout {network accountId asset amount feeCap activeSince : Text} {u : Unit} :
    checkKind (js "payout") network accountId asset amount feeCap activeSince = .ok u ↔
      isUuid accountId = true ∧ hasAsset network asset = true ∧ isPosint amount = true ∧
      isUint feeCap = true ∧ isSeconds activeSince = true := by
  simp [checkKind, check_bind, check_eq_ok]

theorem checkKind_whitelist {network accountId asset amount feeCap activeSince : Text}
    {u : Unit} :
    checkKind (js "whitelist") network accountId asset amount feeCap activeSince = .ok u ↔
      accountId = noField ∧ asset = noField ∧ amount = noField ∧ feeCap = noField ∧
      activeSince = noField := by
  have hne : js "whitelist" ≠ js "payout" := by decide
  simp [checkKind, check_eq_ok, hne, and_assoc]

/-- The fields of a valid intent pass the page's checks of them. -/
theorem checkKind_of_valid {A : AddressLib} {i : Intent} (hv : ValidIntent A i) (hf : i.Fits) :
    checkKind i.kind.text i.network.key (optField id i.accountId)
      (optField AssetCode.text i.asset) (optField decimal i.amount) (optField decimal i.feeCap)
      (optField intText i.destinationActiveSince) = .ok () := by
  have hkf := hv.kindFields
  unfold KindFields at hkf
  split at hkf
  · rename_i hk
    obtain ⟨account, asset, amount, cap, since, h1, h2, h3, h4, h5, h6, h7, h8, h9⟩ := hkf
    rw [hk, h1, h3, h5, h7, h8]
    apply checkKind_payout.2
    refine ⟨h2, ?_, isPosint_decimal h6 (hf.1 _ h5), isUint_decimal (hf.2 _ h7), h9⟩
    rw [hasAsset_key]
    exact h4
  · rename_i hk
    obtain ⟨h1, h2, h3, h4, h5⟩ := hkf
    rw [hk, h1, h2, h3, h4, h5]
    exact checkKind_whitelist.2 ⟨rfl, rfl, rfl, rfl, rfl⟩

theorem kind_check (k : IntentKind) :
    (decide (k.text = js "payout") || decide (k.text = js "whitelist")) = true := by
  cases k <;> decide

/-- The page reads every intent that the signer reads. -/
theorem parseIntent_of_core {A : AddressLib} (hA : AddressShapes A) {t : Text} {i : Intent}
    (h : Klick.parseIntent A t = .ok i) : ∃ p, parseIntent t = .ok p ∧ ShowsIntent p i := by
  obtain ⟨hv, hf, rfl⟩ := of_parseIntent h
  obtain ⟨hsplit, hvisible, hlen⟩ := hv.splits hA hf
  obtain ⟨haccount, hsince, hamount⟩ := hv.kindTexts
  have hcheck : (isVisibleText i.text && decide (i.text.length ≤ 600)) = true := by
    simp [hvisible, hlen]
  have hnet := lookup_networks.2 ⟨i.network, rfl, rfl⟩
  have hshape := isAddress_of_check hA hv.destination
  rw [← addressShape_key] at hshape
  unfold parseIntent
  simp only [check_bind, orRefuse_bind, hsplit, Intent.texts]
  refine ⟨_, ⟨hcheck, by decide, kind_check i.kind, hv.org, hv.initiator, hv.intentId,
    hv.nonce, hv.expires, _, hnet, chain_check hv.chain, hshape,
    bind_eq_ok.mpr ⟨(), checkKind_of_valid hv hf, rfl⟩⟩, ?_⟩
  exact {
    kind := rfl
    orgId := rfl
    accountId := by
      have h := @present_optField Text id _ fun t ht => isUuid_ne_noField (haccount t ht)
      rwa [Option.map_id] at h
    network := rfl
    chainId := by rw [hv.chain, present_chainId]
    asset := present_optField fun a _ => asset_ne_noField a
    amount := present_optField fun a _ => ne_noField_of_digits (decimal_digits a)
    destination := rfl
    destinationActiveSince := by
      simp only
      rw [present_optField fun z hz =>
        ne_noField_of_digits (isPosDigits_iff.mp (hsince z hz)).2.1]
      cases hs : i.destinationActiveSince with
      | none => rfl
      | some z => exact congrArg some (natOf_seconds (hsince z hs))
    feeCap := present_optField fun c _ => ne_noField_of_digits (decimal_digits c)
    initiator := rfl
    intentId := rfl
    nonce := rfl
    expiresAt := natOf_seconds hv.expires }

theorem optField_present (v : Text) : optField id (present v) = v := by
  unfold present
  split_ifs with h
  · exact h.symm
  · rfl

theorem present_of_isUuid {v : Text} (h : isUuid v = true) : present v = some v :=
  if_neg (isUuid_ne_noField h)

theorem present_of_isPosDigits {lo hi : ℕ} {v : Text} (h : isPosDigits lo hi v = true) :
    present v = some v := if_neg (ne_noField_of_digits (isPosDigits_iff.mp h).2.1)

theorem present_of_isUint {v : Text} (h : isUint v = true) : present v = some v := by
  rw [← decimal_natOf_of_isUint h]
  exact if_neg (ne_noField_of_digits (decimal_digits _))

/-- A count of seconds is read as it was written. -/
theorem seconds_natOf {v : Text} (h : isSeconds v = true) : intText (natOf v : ℤ) = v := by
  rw [intText_ofNat]
  exact (decimal_natOf h).1

/-- The signer reads every intent that the page reads, but for the spelling of the address. -/
theorem core_of_parseIntent {A : AddressLib} (hA : AddressShapes A) {t : Text} {p : PageIntent}
    (h : parseIntent t = .ok p) (hd : NormalAddresses A p.network [p.destination]) :
    ∃ i, Klick.parseIntent A t = .ok i ∧ ShowsIntent p i := by
  unfold parseIntent at h
  rw [check_bind] at h
  obtain ⟨-, h⟩ := h
  split at h
  · rename_i start kind orgId accountId network chainId asset amount destination activeSince
      feeCap initiator intentId nonce expiresAt hsplit
    simp only [check_bind, orRefuse_bind, decide_eq_true_eq, Bool.or_eq_true] at h
    obtain ⟨rfl, hkind, horg, hinitiator, hid, hnonce, hexpires, net, hnet, rfl, hshape, h⟩ := h
    obtain ⟨_, hcheck, h⟩ := bind_eq_ok.mp h
    obtain rfl := Except.ok.inj h
    obtain ⟨n, rfl, rfl⟩ := lookup_networks.1 hnet
    have hdest := hd n (WalletNetwork.ofKey?_key n) _ (List.mem_singleton_self _)
    have htext : t = join bar _ := (join_splitOn bar t).symm
    rw [hsplit] at htext
    rcases hkind with rfl | rfl
    · obtain ⟨haccount, hasset, hamount, hcap, hsince⟩ := checkKind_payout.1 hcheck
      rw [hasAsset_key] at hasset
      obtain ⟨a, ha⟩ := Option.isSome_iff_exists.mp hasset
      obtain rfl := assetOf_code ha
      let i : Intent := {
        kind := .payout, orgId := orgId, accountId := some accountId, network := n,
        chainId := n.chainId, asset := some a.code, amount := some (natOf amount),
        destination := destination, destinationActiveSince := some (natOf activeSince),
        feeCap := some (natOf feeCap), initiator := initiator, intentId := intentId,
        nonce := nonce, expiresAt := natOf expiresAt }
      have hv : ValidIntent A i := {
        org := horg
        initiator := hinitiator
        intentId := hid
        nonce := hnonce
        expires := by rw [seconds_natOf hexpires]; exact hexpires
        chain := rfl
        destination := hdest
        kindFields := ⟨accountId, a.code, natOf amount, natOf feeCap, natOf activeSince, rfl,
          haccount, rfl, hasset, rfl, (decimal_natOf hamount).2, rfl, rfl,
          by rw [seconds_natOf hsince]; exact hsince⟩ }
      refine ⟨i, (parseIntent_eq_ok hA).mpr ⟨hv, ⟨?_, ?_⟩, ?_⟩, ?_⟩
      · rintro _ ⟨⟩
        exact natOf_lt_of_isPosint hamount
      · rintro _ ⟨⟩
        exact natOf_lt_of_isUint hcap
      · rw [htext]
        simp only [i, Intent.text, Intent.texts, optField, (decimal_natOf hamount).1,
          decimal_natOf_of_isUint hcap, seconds_natOf hsince, seconds_natOf hexpires, id]
        rfl
      · exact {
          kind := rfl
          orgId := rfl
          accountId := present_of_isUuid haccount
          network := rfl
          chainId := present_chainId n
          asset := if_neg (asset_ne_noField a.code)
          amount := by
            simp only [i, Option.map_some, (decimal_natOf hamount).1]
            exact present_of_isPosDigits hamount
          destination := rfl
          destinationActiveSince := by
            simp only [i, present_of_isPosDigits hsince, Option.map_some]
            rfl
          feeCap := by
            simp only [i, Option.map_some, decimal_natOf_of_isUint hcap]
            exact present_of_isUint hcap
          initiator := rfl
          intentId := rfl
          nonce := rfl
          expiresAt := rfl }
    · obtain ⟨rfl, rfl, rfl, rfl, rfl⟩ := checkKind_whitelist.1 hcheck
      let i : Intent := {
        kind := .whitelist, orgId := orgId, accountId := none, network := n,
        chainId := n.chainId, asset := none, amount := none, destination := destination,
        destinationActiveSince := none, feeCap := none, initiator := initiator,
        intentId := intentId, nonce := nonce, expiresAt := natOf expiresAt }
      have hv : ValidIntent A i := {
        org := horg
        initiator := hinitiator
        intentId := hid
        nonce := hnonce
        expires := by rw [seconds_natOf hexpires]; exact hexpires
        chain := rfl
        destination := hdest
        kindFields := ⟨rfl, rfl, rfl, rfl, rfl⟩ }
      refine ⟨i, (parseIntent_eq_ok hA).mpr ⟨hv, ⟨?_, ?_⟩, ?_⟩, ?_⟩
      · rintro _ ⟨⟩
      · rintro _ ⟨⟩
      · rw [htext]
        simp only [i, Intent.text, Intent.texts, optField, seconds_natOf hexpires]
        rfl
      · exact {
          kind := rfl
          orgId := rfl
          accountId := rfl
          network := rfl
          chainId := present_chainId n
          asset := rfl
          amount := rfl
          destination := rfl
          destinationActiveSince := rfl
          feeCap := rfl
          initiator := rfl
          intentId := rfl
          nonce := rfl
          expiresAt := rfl }
  · cases h

/-- The page reads every mandate that the signer reads. -/
theorem parseMandate_of_core {A : AddressLib} (hA : AddressShapes A) {t : Text} {m : Mandate}
    (h : Klick.parseMandate A t = .ok m) : ∃ p, parseMandate t = .ok p ∧ ShowsMandate p m := by
  obtain ⟨hv, hf, rfl⟩ := of_parseMandate h
  obtain ⟨hsplit, hvisible, hlen⟩ := hv.splits hA hf
  obtain ⟨hshapes, hdests, -, -⟩ := hv.addresses hA
  have hcheck : (isVisibleText m.text && decide (m.text.length ≤ 2400)) = true := by
    simp [hvisible, hlen]
  have hnet := lookup_networks.2 ⟨m.network, rfl, rfl⟩
  have hasset : hasAsset m.network.key m.asset.text = true := by
    rw [hasAsset_key]
    exact hv.asset
  have hamounts : (isPosint (decimal m.perPayout) && isPosint (decimal m.total)) = true := by
    have hper : m.perPayout < 10 ^ 40 := Nat.lt_of_le_of_lt hv.total hf
    have htotal : 0 < m.total := Nat.lt_of_lt_of_le hv.perPayout hv.total
    rw [isPosint_decimal hv.perPayout hper, isPosint_decimal htotal hf]
    rfl
  have hcount : (decide (0 < m.destinations.length) && decide (m.destinations.length ≤ 20))
      = true := by
    rw [Bool.and_eq_true, decide_eq_true_eq, decide_eq_true_eq]
    exact hv.count
  have hshape : m.destinations.all
      (addressShape m.network.key ⟨m.network.chainId, m.network.live⟩) = true := by
    rw [List.all_eq_true]
    intro d hd
    rw [addressShape_key]
    exact hshapes d hd
  have hfrom := natOf_seconds hv.fromSeconds
  have huntil := natOf_seconds hv.untilSeconds
  have horder := hv.order
  have hdays := hv.days
  simp only [mandateMaxDays] at hdays
  unfold parseMandate
  simp only [check_bind, orRefuse_bind, hsplit, Mandate.texts, hdests]
  refine ⟨_, ⟨hcheck, by decide, hv.org, hv.mandateId, hv.grantee, hv.issuer,
    decide_eq_true hv.notSelf, hv.nonce, _, hnet, chain_check hv.chain, hasset, hamounts, ?_,
    hcount, hshape, decide_eq_true hv.sorted, hv.fromSeconds, hv.untilSeconds, ?_, ?_, rfl⟩, ?_⟩
  · rw [natOf_decimal, natOf_decimal]
    exact decide_eq_true hv.total
  · rw [decide_eq_true_eq]
    omega
  · rw [decide_eq_true_eq]
    omega
  · exact {
      orgId := rfl
      mandateId := rfl
      grantee := rfl
      network := rfl
      chainId := by rw [hv.chain, present_chainId]
      asset := rfl
      perPayout := rfl
      total := rfl
      destinations := rfl
      validFrom := hfrom
      validUntil := huntil
      issuer := rfl
      nonce := rfl }

/-- The signer reads every mandate that the page reads, but for the spelling of addresses. -/
theorem core_of_parseMandate {A : AddressLib} (hA : AddressShapes A) {t : Text} {p : PageMandate}
    (h : parseMandate t = .ok p) (hd : NormalAddresses A p.network p.destinations) :
    ∃ m, Klick.parseMandate A t = .ok m ∧ ShowsMandate p m := by
  unfold parseMandate at h
  rw [check_bind] at h
  obtain ⟨-, h⟩ := h
  split at h
  · rename_i start orgId mandateId grantee network chainId asset perPayout total destinations
      validFrom validUntil issuer nonce hsplit
    simp only [check_bind, orRefuse_bind, decide_eq_true_eq, Bool.and_eq_true] at h
    obtain ⟨rfl, horg, hid, hgrantee, hissuer, hself, hnonce, net, hnet, rfl, hasset,
      ⟨hper, htotal⟩, hle, hcount, hshape, hsorted, hfrom, huntil, horder, hdays, h⟩ := h
    obtain rfl := Except.ok.inj h
    obtain ⟨n, rfl, rfl⟩ := lookup_networks.1 hnet
    rw [hasAsset_key] at hasset
    obtain ⟨a, ha⟩ := Option.isSome_iff_exists.mp hasset
    obtain rfl := assetOf_code ha
    have htext : t = join bar _ := (join_splitOn bar t).symm
    rw [hsplit] at htext
    let m : Mandate := {
      orgId := orgId, mandateId := mandateId, grantee := grantee, network := n,
      chainId := n.chainId, asset := a.code, perPayout := natOf perPayout,
      total := natOf total, destinations := destinations.splitOn comma,
      validFrom := natOf validFrom, validUntil := natOf validUntil, issuer := issuer,
      nonce := nonce }
    have hv : ValidMandate A m := {
      org := horg
      mandateId := hid
      grantee := hgrantee
      issuer := hissuer
      notSelf := hself
      nonce := hnonce
      chain := rfl
      asset := hasset
      perPayout := (decimal_natOf hper).2
      total := hle
      count := hcount
      destinations := hd n (WalletNetwork.ofKey?_key n)
      sorted := by rw [join_splitOn]; exact hsorted
      fromSeconds := by rw [seconds_natOf hfrom]; exact hfrom
      untilSeconds := by rw [seconds_natOf huntil]; exact huntil
      order := by simp only [m]; omega
      days := by simp only [m, mandateMaxDays]; omega }
    refine ⟨m, (parseMandate_eq_ok hA).mpr ⟨hv, natOf_lt_of_isPosint htotal, ?_⟩, ?_⟩
    · rw [htext]
      simp only [m, Mandate.text, Mandate.texts, join_splitOn, (decimal_natOf hper).1,
        (decimal_natOf htotal).1, seconds_natOf hfrom, seconds_natOf huntil]
      rfl
    · exact {
        orgId := rfl
        mandateId := rfl
        grantee := rfl
        network := rfl
        chainId := present_chainId n
        asset := rfl
        perPayout := (decimal_natOf hper).1.symm
        total := (decimal_natOf htotal).1.symm
        destinations := rfl
        validFrom := rfl
        validUntil := rfl
        issuer := rfl
        nonce := rfl }
  · cases h

/-- **What the person sees is what the signer signs**: the page reads every text that the
signer reads, with the same fields, and the signer reads every text of the page whose
addresses it does not reject or spell otherwise. -/
theorem page_shows_what_the_signer_reads {A : AddressLib} (hA : AddressShapes A) (t : Text) :
    (∀ i, Klick.parseIntent A t = .ok i → ∃ p, parseIntent t = .ok p ∧ ShowsIntent p i) ∧
    (∀ p, parseIntent t = .ok p → NormalAddresses A p.network [p.destination] →
      ∃ i, Klick.parseIntent A t = .ok i ∧ ShowsIntent p i) ∧
    (∀ m, Klick.parseMandate A t = .ok m → ∃ p, parseMandate t = .ok p ∧ ShowsMandate p m) ∧
    (∀ p, parseMandate t = .ok p → NormalAddresses A p.network p.destinations →
      ∃ m, Klick.parseMandate A t = .ok m ∧ ShowsMandate p m) :=
  ⟨fun _ h => parseIntent_of_core hA h, fun _ h hd => core_of_parseIntent hA h hd,
    fun _ h => parseMandate_of_core hA h, fun _ h hd => core_of_parseMandate hA h hd⟩

/-- Libraries that know one address of the test network. -/
def oneAddress : AddressLib where
  btcDecodes live t := !live && t = js "tb1qw508d6qejxtdg4y5r3zarvary0c5xw7kxpjzsx"
  ethIsValid _ := false
  ethAddChecksum _ := js "0x00000000000000000000000000000000000000AA"

theorem shapes_oneAddress : AddressShapes oneAddress where
  btc n bech32 t hb _ h := by
    simp only [oneAddress, Bool.and_eq_true, decide_eq_true_eq] at h
    obtain ⟨hlive, rfl⟩ := h
    cases n with
    | bitcoinSignet => decide +kernel
    | bitcoinMainnet => cases hlive
    | ethereumSepolia => cases hb
    | ethereumMainnet => cases hb
  eth _ _ := by
    change isEthAddr (js "0x00000000000000000000000000000000000000AA") = true
    rw [js_ofList]
    decide

/-- A payout of 0.0125 Bitcoin of the test network. -/
def payoutText : Text := js (
  "klick-wallet/v1|payout|11111111-2222-4333-8444-555555555555|" ++
  "66666666-7777-4888-9999-aaaaaaaaaaaa|bitcoin_signet|-|BTC|1250000|" ++
  "tb1qw508d6qejxtdg4y5r3zarvary0c5xw7kxpjzsx|1792000000|5000|" ++
  "bbbbbbbb-cccc-4ddd-8eee-ffffffffffff|0123456789abcdef0123456789abcdef|" ++
  "fedcba9876543210fedcba9876543210|1792100000")

def payoutOfText : Intent where
  kind := .payout
  orgId := js "11111111-2222-4333-8444-555555555555"
  accountId := some (js "66666666-7777-4888-9999-aaaaaaaaaaaa")
  network := .bitcoinSignet
  chainId := none
  asset := some .btc
  amount := some 1250000
  destination := js "tb1qw508d6qejxtdg4y5r3zarvary0c5xw7kxpjzsx"
  destinationActiveSince := some 1792000000
  feeCap := some 5000
  initiator := js "bbbbbbbb-cccc-4ddd-8eee-ffffffffffff"
  intentId := js "0123456789abcdef0123456789abcdef"
  nonce := js "fedcba9876543210fedcba9876543210"
  expiresAt := 1792100000

theorem payoutOfText_valid : ValidIntent oneAddress payoutOfText where
  org := by decide +kernel
  initiator := by decide +kernel
  intentId := by decide +kernel
  nonce := by decide +kernel
  expires := by decide +kernel
  chain := rfl
  destination := by decide +kernel
  kindFields := by
    refine ⟨_, .btc, 1250000, 5000, 1792000000, rfl, ?_, rfl, ?_, rfl, ?_, rfl, rfl, ?_⟩ <;>
      decide +kernel

theorem payoutOfText_fits : payoutOfText.Fits := by
  constructor
  · rintro _ ⟨⟩
    norm_num
  · rintro _ ⟨⟩
    norm_num

theorem payoutOfText_text : payoutText = payoutOfText.text := by
  simp only [payoutText, js_append, payoutOfText, Intent.text, Intent.texts, optField, id]
  repeat rw [js_ofList]
  decide +kernel

theorem payout_is_shown :
    ∃ p, parseIntent payoutText = .ok p ∧ ShowsIntent p payoutOfText :=
  (page_shows_what_the_signer_reads shapes_oneAddress payoutText).1 payoutOfText
    ((parseIntent_eq_ok shapes_oneAddress).mpr
      ⟨payoutOfText_valid, payoutOfText_fits, payoutOfText_text⟩)

end Confirm

end Klick
