-- An intent and its canonical text (`lib/wallet/core/intent.ts`): what a
-- security key approves. The parser accepts a text only if it is the one
-- text of the intent that it reads.
import Klick.Address
import Klick.Fields

open Js

namespace Klick

/-! ## Intents -/

inductive IntentKind
  | payout | whitelist
deriving DecidableEq, Repr

namespace IntentKind

def text : IntentKind → Text
  | payout => js "payout"
  | whitelist => js "whitelist"

def ofText? (t : Text) : Option IntentKind :=
  [payout, whitelist].find? fun k => k.text = t

theorem ofText?_eq_some {t : Text} {k : IntentKind} : ofText? t = some k ↔ t = k.text := by
  constructor
  · intro h
    have := List.find?_some h
    simpa using (of_decide_eq_true this).symm
  · rintro rfl
    cases k <;> decide

end IntentKind

/-- The fields of an intent before they are checked. -/
structure IntentFields where
  kind : Text
  orgId : Text
  accountId : Option Text
  network : Text
  chainId : Option ℕ
  asset : Option Text
  amount : Option ℕ
  destination : Text
  destinationActiveSince : Option ℤ
  feeCap : Option ℕ
  initiator : Text
  intentId : Text
  nonce : Text
  expiresAt : ℤ
deriving DecidableEq, Repr

structure Intent where
  kind : IntentKind
  orgId : Text
  accountId : Option Text
  network : WalletNetwork
  chainId : Option ℕ
  asset : Option AssetCode
  amount : Option ℕ
  destination : Text
  destinationActiveSince : Option ℤ
  feeCap : Option ℕ
  initiator : Text
  intentId : Text
  nonce : Text
  expiresAt : ℤ
deriving DecidableEq, Repr

def Intent.fields (i : Intent) : IntentFields where
  kind := i.kind.text
  orgId := i.orgId
  accountId := i.accountId
  network := i.network.key
  chainId := i.chainId
  asset := i.asset.map AssetCode.text
  amount := i.amount
  destination := i.destination
  destinationActiveSince := i.destinationActiveSince
  feeCap := i.feeCap
  initiator := i.initiator
  intentId := i.intentId
  nonce := i.nonce
  expiresAt := i.expiresAt

/-- The fields that only a payout has; the asset, if it has one. -/
def validateKind (kind : IntentKind) (network : WalletNetwork) (f : IntentFields) :
    Except String (Option AssetCode) :=
  match kind with
  | .payout => do
    check (f.accountId.any isUuid) "account"
    let asset ← orRefuse (f.asset.bind (assetOf network)) "asset"
    check (f.amount.any fun a => 0 < a) "amount"
    check f.feeCap.isSome "fee"
    check (f.destinationActiveSince.any fun s => isSeconds (intText s)) "active"
    return some asset.code
  | .whitelist => do
    check f.accountId.isNone "account"
    check f.asset.isNone "asset"
    check f.amount.isNone "amount"
    check f.feeCap.isNone "fee"
    check f.destinationActiveSince.isNone "active"
    return none

/-- `validate`, which gives the fields their types. -/
def validateIntent (A : AddressLib) (f : IntentFields) : Except String Intent := do
  let kind ← orRefuse (IntentKind.ofText? f.kind) "kind"
  check (isUuid f.orgId) "org"
  check (isUuid f.initiator) "initiator"
  check (isHex 32 f.intentId) "id"
  check (isHex 32 f.nonce) "nonce"
  check (isSeconds (intText f.expiresAt)) "expires"
  let network ← orRefuse (WalletNetwork.ofKey? f.network) "network"
  check (f.chainId = network.chainId) "chain"
  check (checkAddress A network f.destination = .ok f.destination) "destination"
  let asset ← validateKind kind network f
  return {
    kind := kind
    orgId := f.orgId
    accountId := f.accountId
    network := network
    chainId := f.chainId
    asset := asset
    amount := f.amount
    destination := f.destination
    destinationActiveSince := f.destinationActiveSince
    feeCap := f.feeCap
    initiator := f.initiator
    intentId := f.intentId
    nonce := f.nonce
    expiresAt := f.expiresAt }

/-! ## The canonical text -/

/-- `INTENT_PREFIX` -/
def intentPrefix : Text := js "klick-wallet/v1"

/-- `v === null ? NONE : String(v)` -/
def optField {α : Type} (text : α → Text) (v : Option α) : Text :=
  match v with
  | some a => text a
  | none => noField

def Intent.texts (i : Intent) : List Text := [
  intentPrefix, i.kind.text, i.orgId, optField id i.accountId, i.network.key,
  optField decimal i.chainId, optField AssetCode.text i.asset, optField decimal i.amount,
  i.destination, optField intText i.destinationActiveSince, optField decimal i.feeCap,
  i.initiator, i.intentId, i.nonce, intText i.expiresAt]

def Intent.text (i : Intent) : Text := join bar i.texts

def encodeIntent (A : AddressLib) (i : Intent) : Except String Text := do
  let _ ← validateIntent A i.fields
  return i.text

/-- An absent field, or one of a format. -/
def optional (format : Text → Bool) (v : Text) (field : String) : Except String (Option Text) :=
  if v = noField then .ok none
  else if format v then .ok (some v)
  else .error field

def parseIntent (A : AddressLib) (text : Text) : Except String Intent := do
  check (isVisibleText text && text.length ≤ 600) "text"
  match text.splitOn bar with
  | [start, kind, orgId, accountId, network, chainId, asset, amount, destination, activeSince,
      feeCap, initiator, intentId, nonce, expiresAt] => do
    check (start = intentPrefix) "format"
    let chainId ← optional isPosint chainId "chain"
    let amount ← optional isPosint amount "amount"
    let activeSince ← optional isSeconds activeSince "active"
    let feeCap ← optional isUint feeCap "fee"
    let expiresAt ← optional isSeconds expiresAt "expires"
    let intent ← validateIntent A {
      kind := kind
      orgId := orgId
      accountId := if accountId = noField then none else some accountId
      network := network
      chainId := chainId.map natOf
      asset := if asset = noField then none else some asset
      amount := amount.map natOf
      destination := destination
      destinationActiveSince := activeSince.map fun t => (natOf t : ℤ)
      feeCap := feeCap.map natOf
      initiator := initiator
      intentId := intentId
      nonce := nonce
      expiresAt := ((expiresAt.map natOf).getD 0 : ℕ) }
    let again ← encodeIntent A intent
    check (again = text) "canonical"
    return intent
  | _ => .error "format"

/-! ## Valid intents -/

/-- The fields that only a payout has. -/
def KindFields (i : Intent) : Prop :=
  match i.kind with
  | .payout => ∃ account asset amount feeCap since,
      i.accountId = some account ∧ isUuid account = true ∧
      i.asset = some asset ∧ (assetOf i.network asset.text).isSome ∧
      i.amount = some amount ∧ 0 < amount ∧ i.feeCap = some feeCap ∧
      i.destinationActiveSince = some since ∧ isSeconds (intText since) = true
  | .whitelist => i.accountId = none ∧ i.asset = none ∧ i.amount = none ∧ i.feeCap = none ∧
      i.destinationActiveSince = none

structure ValidIntent (A : AddressLib) (i : Intent) : Prop where
  org : isUuid i.orgId = true
  initiator : isUuid i.initiator = true
  intentId : isHex 32 i.intentId = true
  nonce : isHex 32 i.nonce = true
  expires : isSeconds (intText i.expiresAt) = true
  chain : i.chainId = i.network.chainId
  destination : checkAddress A i.network i.destination = .ok i.destination
  kindFields : KindFields i

theorem assetOf_code {n : WalletNetwork} {t : Text} {a : AssetInfo} (h : assetOf n t = some a) :
    a.code.text = t := by
  have := List.find?_some h
  simpa using this

theorem validateKind_payout {n : WalletNetwork} {f : IntentFields} {asset : Option AssetCode} :
    validateKind .payout n f = .ok asset ↔ ∃ account code amount feeCap since,
      f.accountId = some account ∧ isUuid account = true ∧
      f.asset = some (AssetCode.text code) ∧ asset = some code ∧ (assetOf n code.text).isSome ∧
      f.amount = some amount ∧ 0 < amount ∧ f.feeCap = some feeCap ∧
      f.destinationActiveSince = some since ∧ isSeconds (intText since) = true := by
  simp only [validateKind, check_bind, orRefuse_bind, Option.any_eq_true, Option.bind_eq_some_iff,
    Option.isSome_iff_exists, decide_eq_true_eq]
  constructor
  · rintro ⟨⟨account, h1, h2⟩, a, ⟨t, h3, h4⟩, ⟨amount, h5, h6⟩, ⟨cap, h7⟩, ⟨since, h8, h9⟩, h⟩
    obtain rfl := Except.ok.inj h
    have hcode := assetOf_code h4
    exact ⟨account, a.code, amount, cap, since, h1, h2, by rw [h3, hcode], rfl,
      ⟨a, by rw [hcode]; exact h4⟩, h5, h6, h7, h8, h9⟩
  · rintro ⟨account, code, amount, cap, since, h1, h2, h3, rfl, ⟨a, h4⟩, h5, h6, h7, h8, h9⟩
    have hcode : a.code = code := AssetCode.text_injective (assetOf_code h4)
    exact ⟨⟨account, h1, h2⟩, a, ⟨_, h3, h4⟩, ⟨amount, h5, h6⟩, ⟨cap, h7⟩, ⟨since, h8, h9⟩,
      by rw [hcode]; rfl⟩

theorem validateKind_whitelist {n : WalletNetwork} {f : IntentFields} {asset : Option AssetCode} :
    validateKind .whitelist n f = .ok asset ↔ asset = none ∧ f.accountId = none ∧
      f.asset = none ∧ f.amount = none ∧ f.feeCap = none ∧ f.destinationActiveSince = none := by
  simp only [validateKind, check_bind, Option.isNone_iff_eq_none]
  constructor
  · rintro ⟨h1, h2, h3, h4, h5, h⟩
    exact ⟨(Except.ok.inj h).symm, h1, h2, h3, h4, h5⟩
  · rintro ⟨rfl, h1, h2, h3, h4, h5⟩
    exact ⟨h1, h2, h3, h4, h5, rfl⟩

/-- Validation accepts exactly the fields of valid intents. -/
theorem validateIntent_eq_ok {A : AddressLib} {f : IntentFields} {i : Intent} :
    validateIntent A f = .ok i ↔ f = i.fields ∧ ValidIntent A i := by
  simp only [validateIntent, check_bind, orRefuse_bind, IntentKind.ofText?_eq_some,
    WalletNetwork.ofKey?_eq_some, decide_eq_true_eq]
  constructor
  · rintro ⟨kind, hk, h1, h2, h3, h4, h5, n, hn, h6, h7, h⟩
    cases ha : validateKind kind n f with
    | error e => rw [ha] at h; cases h
    | ok asset =>
      rw [ha] at h
      obtain rfl := Except.ok.inj h
      cases kind with
      | payout =>
        obtain ⟨account, code, amount, cap, since, g1, g2, g3, rfl, g4, g5, g6, g7, g8, g9⟩ :=
          validateKind_payout.1 ha
        refine ⟨?_, h1, h2, h3, h4, h5, h6, h7, ?_⟩
        · cases f
          simp_all [Intent.fields]
        · exact ⟨account, code, amount, cap, since, g1, g2, rfl, g4, g5, g6, g7, g8, g9⟩
      | whitelist =>
        obtain ⟨rfl, g1, g2, g3, g4, g5⟩ := validateKind_whitelist.1 ha
        refine ⟨?_, h1, h2, h3, h4, h5, h6, h7, g1, rfl, g3, g4, g5⟩
        cases f
        simp_all [Intent.fields]
  · rintro ⟨rfl, hv⟩
    refine ⟨i.kind, rfl, hv.org, hv.initiator, hv.intentId, hv.nonce, hv.expires, i.network, rfl,
      hv.chain, hv.destination, ?_⟩
    have hasset : validateKind i.kind i.network i.fields = .ok i.asset := by
      have hkf := hv.kindFields
      unfold KindFields at hkf
      split at hkf
      · rename_i hk
        obtain ⟨account, code, amount, cap, since, g1, g2, g3, g4, g5, g6, g7, g8, g9⟩ := hkf
        rw [hk]
        exact validateKind_payout.2 ⟨account, code, amount, cap, since, g1, g2,
          by simp [Intent.fields, g3], g3, g4, g5, g6, g7, g8, g9⟩
      · rename_i hk
        obtain ⟨g1, g2, g3, g4, g5⟩ := hkf
        rw [hk]
        exact validateKind_whitelist.2 ⟨g2, g1, by simp [Intent.fields, g2], g3, g4, g5⟩
    rw [hasset]
    rfl

/-- The fields are those of one intent. -/
theorem Intent.fields_injective {i j : Intent} (h : i.fields = j.fields) : i = j := by
  have hkind : i.kind = j.kind := by
    have ht := congrArg IntentFields.kind h
    have hi := IntentKind.ofText?_eq_some.mpr ht
    have hj := IntentKind.ofText?_eq_some.mpr (rfl : i.fields.kind = i.kind.text)
    rw [hj] at hi
    exact Option.some.inj hi
  have hnet : i.network = j.network := WalletNetwork.key_injective (congrArg IntentFields.network h)
  have hasset : i.asset = j.asset :=
    Option.map_injective (fun a b hab => AssetCode.text_injective hab)
      (congrArg IntentFields.asset h)
  cases i
  cases j
  simp_all [Intent.fields]

/-- A valid intent has a text, and no other has one. -/
theorem encodeIntent_eq_ok {A : AddressLib} {i : Intent} {t : Text} :
    encodeIntent A i = .ok t ↔ ValidIntent A i ∧ t = i.text := by
  unfold encodeIntent
  rw [bind_eq_ok]
  constructor
  · rintro ⟨j, hj, ht⟩
    obtain ⟨hf, hv⟩ := validateIntent_eq_ok.1 hj
    obtain rfl := Intent.fields_injective hf
    exact ⟨hv, (Except.ok.inj ht).symm⟩
  · rintro ⟨hv, rfl⟩
    exact ⟨i, validateIntent_eq_ok.2 ⟨rfl, hv⟩, rfl⟩

/-! ## Reading the text back -/

/-- The amounts have at most 40 digits, which is all that the parser reads. -/
def Intent.Fits (i : Intent) : Prop :=
  (∀ a, i.amount = some a → a < 10 ^ 40) ∧ (∀ c, i.feeCap = some c → c < 10 ^ 40)

theorem fieldText_kind (k : IntentKind) : FieldText k.text ∧ k.text.length ≤ 9 := by
  cases k <;> exact ⟨fieldText_of_all (by decide), by decide⟩

theorem fieldText_network (n : WalletNetwork) : FieldText n.key ∧ n.key.length ≤ 16 := by
  cases n <;> exact ⟨fieldText_of_all (by decide), by decide⟩

theorem fieldText_asset (a : AssetCode) : FieldText a.text ∧ a.text.length ≤ 4 := by
  cases a <;> exact ⟨fieldText_of_all (by decide), by decide⟩

theorem fieldText_chainId (n : WalletNetwork) :
    FieldText (optField decimal n.chainId) ∧ (optField decimal n.chainId).length ≤ 8 := by
  cases n <;> exact ⟨fieldText_of_all (by decide), by decide⟩

theorem fieldText_noField : FieldText noField := fieldText_of_all (by decide)

theorem fieldText_optField {α : Type} {text : α → Text} {v : Option α} {k : ℕ} (hk : 1 ≤ k)
    (h : ∀ a, v = some a → FieldText (text a) ∧ (text a).length ≤ k) :
    FieldText (optField text v) ∧ (optField text v).length ≤ k := by
  cases v with
  | none => exact ⟨fieldText_noField, hk⟩
  | some a => exact h a rfl

theorem fieldText_uuid {t : Text} (h : isUuid t = true) : FieldText t ∧ t.length ≤ 36 :=
  ⟨fieldText_of_isUuid h, (isUuid_length h).le⟩

theorem fieldText_hex {n : ℕ} {t : Text} (h : isHex n t = true) : FieldText t ∧ t.length ≤ n := by
  refine ⟨fieldText_of_isHex h, ?_⟩
  simp only [isHex, Bool.and_eq_true, decide_eq_true_eq] at h
  exact h.1.le

theorem fieldText_seconds {z : ℤ} (h : isSeconds (intText z) = true) :
    FieldText (intText z) ∧ (intText z).length ≤ 11 :=
  ⟨fieldText_of_isPosDigits h, (isPosDigits_iff.mp h).2.2.2⟩

theorem fieldText_amount {n : ℕ} (h : n < 10 ^ 40) :
    FieldText (decimal n) ∧ (decimal n).length ≤ 40 :=
  ⟨fieldText_decimal n, (decimal_length_le (by omega)).mpr h⟩

/-- Some of the fields of a payout are absent in a whitelisting, and then no check fails. -/
theorem ValidIntent.kindTexts {A : AddressLib} {i : Intent} (hv : ValidIntent A i) :
    (∀ t, i.accountId = some t → isUuid t = true) ∧
    (∀ z, i.destinationActiveSince = some z → isSeconds (intText z) = true) ∧
    (∀ a, i.amount = some a → 0 < a) := by
  have h := hv.kindFields
  unfold KindFields at h
  split at h
  · obtain ⟨account, asset, amount, cap, since, h1, h2, -, -, h5, h6, -, h8, h9⟩ := h
    rw [h1, h5, h8]
    refine ⟨?_, ?_, ?_⟩
    · rintro _ ⟨⟩
      exact h2
    · rintro _ ⟨⟩
      exact h9
    · rintro _ ⟨⟩
      exact h6
  · obtain ⟨h1, -, h3, -, h5⟩ := h
    rw [h1, h3, h5]
    exact ⟨fun _ h => (nomatch h), fun _ h => (nomatch h), fun _ h => (nomatch h)⟩

/-- No field of a valid intent has a bar, and all of them together are short. -/
theorem ValidIntent.texts {A : AddressLib} (hA : AddressShapes A) {i : Intent}
    (hv : ValidIntent A i) (hf : i.Fits) :
    (∀ t ∈ i.texts, FieldText t) ∧ (i.texts.map List.length).sum ≤ 417 := by
  obtain ⟨haccount, hsince, -⟩ := hv.kindTexts
  have hdest := isAddress_of_check hA hv.destination
  have h1 := fieldText_kind i.kind
  have h2 := fieldText_uuid hv.org
  have h3 := @fieldText_optField Text id i.accountId 36 (by omega)
    fun t ht => fieldText_uuid (haccount t ht)
  have h4 := fieldText_network i.network
  have h5 := fieldText_chainId i.network
  rw [← hv.chain] at h5
  have h6 := @fieldText_optField AssetCode AssetCode.text i.asset 4 (by omega)
    fun a _ => fieldText_asset a
  have h7 := @fieldText_optField ℕ decimal i.amount 40 (by omega)
    fun a ha => fieldText_amount (hf.1 a ha)
  have h8 := isAddress_units hdest
  have h9 := @fieldText_optField ℤ intText i.destinationActiveSince 11 (by omega)
    fun z hz => fieldText_seconds (hsince z hz)
  have h10 := @fieldText_optField ℕ decimal i.feeCap 40 (by omega)
    fun c hc => fieldText_amount (hf.2 c hc)
  have h11 := fieldText_uuid hv.initiator
  have h12 := fieldText_hex hv.intentId
  have h13 := fieldText_hex hv.nonce
  have h14 := fieldText_seconds hv.expires
  constructor
  · intro t ht
    simp only [Intent.texts, List.mem_cons, List.not_mem_nil, or_false] at ht
    rcases ht with rfl | rfl | rfl | rfl | rfl | rfl | rfl | rfl | rfl | rfl | rfl | rfl | rfl |
      rfl | rfl
    · exact fieldText_of_all (by decide)
    · exact h1.1
    · exact h2.1
    · exact h3.1
    · exact h4.1
    · exact h5.1
    · exact h6.1
    · exact h7.1
    · exact fieldText_of_isAddress hdest
    · exact h9.1
    · exact h10.1
    · exact h11.1
    · exact h12.1
    · exact h13.1
    · exact h14.1
  · have hstart : intentPrefix.length = 15 := rfl
    simp only [Intent.texts, List.map_cons, List.map_nil, List.sum_cons, List.sum_nil]
    omega

/-- The text of a valid intent splits into its fields and is short enough to be read. -/
theorem ValidIntent.splits {A : AddressLib} (hA : AddressShapes A) {i : Intent}
    (hv : ValidIntent A i) (hf : i.Fits) :
    i.text.splitOn bar = i.texts ∧ isVisibleText i.text = true ∧ i.text.length ≤ 600 := by
  obtain ⟨htexts, hsum⟩ := hv.texts hA hf
  have hne : i.texts ≠ [] := List.cons_ne_nil _ _
  have hlen := @join_length bar i.texts hne
  have hcount : i.texts.length = 15 := rfl
  rw [hcount] at hlen
  have hsome : join bar i.texts ≠ [] := by
    intro h
    rw [h, List.length_nil] at hlen
    omega
  exact ⟨splitOn_join hne htexts, isVisibleText_join hsome htexts, by unfold Intent.text; omega⟩

/-- An optional field that is written is read back. -/
theorem optional_optField {α : Type} {format : Text → Bool} {text : α → Text} {v : Option α}
    {field : String}
    (h : ∀ a, v = some a → format (text a) = true ∧ ∀ u ∈ text a, isDigit u = true) :
    optional format (optField text v) field = .ok (v.map text) := by
  cases v with
  | none => rfl
  | some a =>
    obtain ⟨hformat, hdigits⟩ := h a rfl
    simp [optional, optField, ne_noField_of_digits hdigits, hformat]

theorem optional_eq_ok {format : Text → Bool} {v : Text} {field : String} {o : Option Text} :
    optional format v field = .ok o ↔ v = optField id o ∧ ∀ t, o = some t → format t = true ∧
      t ≠ noField := by
  unfold optional
  split_ifs with h1 h2
  · subst h1
    constructor
    · rintro ⟨⟩
      exact ⟨rfl, fun _ h => (nomatch h)⟩
    · rintro ⟨h, hsome⟩
      cases o with
      | none => rfl
      | some t => exact absurd h.symm (hsome t rfl).2
  · constructor
    · rintro ⟨⟩
      refine ⟨rfl, ?_⟩
      rintro _ ⟨⟩
      exact ⟨h2, h1⟩
    · rintro ⟨h, hsome⟩
      cases o with
      | none => exact absurd h h1
      | some t => rw [h]; rfl
  · constructor
    · rintro ⟨⟩
    · rintro ⟨rfl, hsome⟩
      cases o with
      | none => exact absurd rfl h1
      | some t => exact absurd (hsome t rfl).1 h2

theorem presentField_optField {α : Type} {text : α → Text} {v : Option α}
    (h : ∀ a, v = some a → text a ≠ noField) :
    (if optField text v = noField then none else some (optField text v)) = v.map text := by
  cases v with
  | none => rfl
  | some a => exact if_neg (h a rfl)

@[simp] theorem map_natOf_decimal (v : Option ℕ) : (v.map decimal).map natOf = v := by
  cases v with
  | none => rfl
  | some n => simp [natOf_decimal]

theorem natOf_seconds {z : ℤ} (h : isSeconds (intText z) = true) : (natOf (intText z) : ℤ) = z := by
  obtain ⟨n, rfl, htext, -⟩ := isSeconds_intText h
  rw [htext, natOf_decimal]

theorem asset_ne_noField (a : AssetCode) : a.text ≠ noField := by
  cases a <;> decide

/-- The chain id of a network is read back. -/
theorem optional_chainId (n : WalletNetwork) :
    optional isPosint (optField decimal n.chainId) "chain" = .ok (n.chainId.map decimal) := by
  apply optional_optField
  intro c hc
  refine ⟨?_, decimal_digits c⟩
  cases n <;> cases hc <;> decide

/-- A valid intent within the digits is read back from its text. -/
theorem ValidIntent.parse {A : AddressLib} (hA : AddressShapes A) {i : Intent}
    (hv : ValidIntent A i) (hf : i.Fits) : parseIntent A i.text = .ok i := by
  obtain ⟨hsplit, hvisible, hlen⟩ := hv.splits hA hf
  obtain ⟨haccount, hsince, hamount⟩ := hv.kindTexts
  have hchain := optional_chainId i.network
  rw [← hv.chain] at hchain
  have hamount' : optional isPosint (optField decimal i.amount) "amount"
      = .ok (i.amount.map decimal) := by
    apply optional_optField
    intro a ha
    exact ⟨isPosint_decimal (hamount a ha) (hf.1 a ha), decimal_digits a⟩
  have hsince' : optional isSeconds (optField intText i.destinationActiveSince) "active"
      = .ok (i.destinationActiveSince.map intText) := by
    apply optional_optField
    intro z hz
    exact ⟨hsince z hz, (isPosDigits_iff.mp (hsince z hz)).2.1⟩
  have hcap : optional isUint (optField decimal i.feeCap) "fee"
      = .ok (i.feeCap.map decimal) := by
    apply optional_optField
    intro c hc
    exact ⟨isUint_decimal (hf.2 c hc), decimal_digits c⟩
  have hexpires : optional isSeconds (intText i.expiresAt) "expires"
      = .ok (some (intText i.expiresAt)) := by
    apply optional_eq_ok.2
    refine ⟨rfl, ?_⟩
    rintro _ ⟨⟩
    exact ⟨hv.expires, ne_noField_of_digits (isPosDigits_iff.mp hv.expires).2.1⟩
  have hcheck : (isVisibleText i.text && decide (i.text.length ≤ 600)) = true := by
    simp [hvisible, hlen]
  unfold parseIntent
  rw [check_bind, hsplit]
  refine ⟨hcheck, ?_⟩
  simp only [Intent.texts]
  rw [check_bind, hchain, hamount', hsince', hcap, hexpires]
  refine ⟨by decide, ?_⟩
  have haccount' := @presentField_optField Text id i.accountId
    fun t ht => isUuid_ne_noField (haccount t ht)
  have hasset' := @presentField_optField AssetCode AssetCode.text i.asset
    fun a _ => asset_ne_noField a
  have hactive : (i.destinationActiveSince.map intText).map (fun t => (natOf t : ℤ))
      = i.destinationActiveSince := by
    cases hs : i.destinationActiveSince with
    | none => rfl
    | some z => exact congrArg some (natOf_seconds (hsince z hs))
  simp only [bind, Except.bind, haccount', hasset', hactive, map_natOf_decimal, Option.map_some,
    Option.getD_some, natOf_seconds hv.expires, Option.map_id, id]
  have hfields : validateIntent A i.fields = .ok i := validateIntent_eq_ok.2 ⟨rfl, hv⟩
  have hagain : encodeIntent A i = .ok i.text := encodeIntent_eq_ok.2 ⟨hv, rfl⟩
  simp only [Intent.fields] at hfields
  simp only [hfields, hagain, check, decide_true, if_true]
  rfl

/-- What is read is valid, and the text is its only one. -/
theorem of_parseIntent {A : AddressLib} {t : Text} {i : Intent} (h : parseIntent A t = .ok i) :
    ValidIntent A i ∧ i.Fits ∧ t = i.text := by
  unfold parseIntent at h
  rw [check_bind] at h
  obtain ⟨-, h⟩ := h
  split at h
  · rename_i start kind orgId accountId network chainId asset amount destination activeSince
      feeCap initiator intentId nonce expiresAt hsplit
    rw [check_bind] at h
    obtain ⟨-, h⟩ := h
    obtain ⟨chainId, hchain, h⟩ := bind_eq_ok.mp h
    obtain ⟨amount, hamount, h⟩ := bind_eq_ok.mp h
    obtain ⟨activeSince, hsince, h⟩ := bind_eq_ok.mp h
    obtain ⟨feeCap, hcap, h⟩ := bind_eq_ok.mp h
    obtain ⟨expiresAt, hexpires, h⟩ := bind_eq_ok.mp h
    obtain ⟨j, hj, h⟩ := bind_eq_ok.mp h
    obtain ⟨again, hagain, h⟩ := bind_eq_ok.mp h
    rw [check_bind] at h
    obtain ⟨htext, h⟩ := h
    obtain rfl := Except.ok.inj h
    obtain ⟨hfields, -⟩ := validateIntent_eq_ok.1 hj
    obtain ⟨hv, rfl⟩ := encodeIntent_eq_ok.1 hagain
    refine ⟨hv, ⟨?_, ?_⟩, (of_decide_eq_true htext).symm⟩
    · intro a ha
      have hmap : amount.map natOf = j.amount := congrArg IntentFields.amount hfields
      rw [ha, Option.map_eq_some_iff] at hmap
      obtain ⟨v, hv, rfl⟩ := hmap
      exact natOf_lt_of_isPosint ((optional_eq_ok.1 hamount).2 v hv).1
    · intro c hc
      have hmap : feeCap.map natOf = j.feeCap := congrArg IntentFields.feeCap hfields
      rw [hc, Option.map_eq_some_iff] at hmap
      obtain ⟨v, hv, rfl⟩ := hmap
      exact natOf_lt_of_isUint ((optional_eq_ok.1 hcap).2 v hv).1
  · cases h

/-- **The texts that are read** are those of the valid intents with at most 40 digits. -/
theorem parseIntent_eq_ok {A : AddressLib} (hA : AddressShapes A) {t : Text} {i : Intent} :
    parseIntent A t = .ok i ↔ ValidIntent A i ∧ i.Fits ∧ t = i.text := by
  constructor
  · exact of_parseIntent
  · rintro ⟨hv, hf, rfl⟩
    exact hv.parse hA hf

end Klick
