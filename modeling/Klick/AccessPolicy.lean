-- Who may use a wallet (`apps/wallet/lib/orgs/access-policy.ts`, `lib/net/network-policy.ts`):
-- the networks, the security keys, the assets and the mandates of an organisation, and what a
-- change of these rules is reported as.
import Klick.Distinct
import Klick.Networks
import Klick.NetIp

open Js

namespace Klick.Access

open Net

/-! ## Reading the stored rules -/

structure NetworkEntry where
  cidr : Text
  note : Text
deriving DecidableEq

/-- `MAX_NETWORK_ENTRIES` -/
def maxNetworkEntries : ℕ := 100

/-- A text of a stored value, without blanks around it. -/
def trimmed : Value → Text
  | .str t => trim t
  | _ => []

/-- One stored entry; a network that cannot be read is left out. -/
def entryOf (e : Value) : Option NetworkEntry :=
  let cidr := trimmed (e.get (js "cidr"))
  if cidr = [] ∨ parseCidr cidr = none then none
  else some ⟨cidr, (trimmed (e.get (js "note"))).take 120⟩

def entries : Value → List NetworkEntry
  | .arr items => items.filterMap entryOf
  | _ => []

/-- The members of `walletNetworkPolicy`: only their list counts. -/
def walletNetworkPolicy (raw : Value) : List NetworkEntry :=
  (entries (raw.get (js "members"))).take maxNetworkEntries

structure WalletAccessPolicy where
  /-- `network.members` -/
  members : List NetworkEntry
  securityKeysOnly : Bool
  /-- `null` stands for all assets. -/
  allowedAssets : Option (List AssetCode)
  mandatesRequired : Bool
deriving DecidableEq

/-- The stored columns. -/
structure Row where
  networkPolicy : Value
  securityKeysOnly : Option Bool
  allowedAssets : Value
  mandatesRequired : Option Bool

/-- The asset that a stored value names. -/
def assetOfValue : Value → Option AssetCode
  | .str t => AssetCode.ofText? t
  | _ => none

def assetsOf : Value → Option (List AssetCode)
  | .arr items => some (distinct (items.filterMap assetOfValue))
  | _ => none

def accessPolicyOf (row : Row) : WalletAccessPolicy where
  members := walletNetworkPolicy row.networkPolicy
  securityKeysOnly := row.securityKeysOnly = some true
  allowedAssets := assetsOf row.allowedAssets
  mandatesRequired := row.mandatesRequired = some true

/-! ## What the rules decide -/

/-- The texts of the networks. -/
def WalletAccessPolicy.cidrs (p : WalletAccessPolicy) : List Text := p.members.map (·.cidr)

/-- The address is in one of the networks. -/
def inNetworks (cidrs : List Text) (ip : Option Text) : Bool :=
  ip.any fun ip => ip ≠ [] && ipInRanges ip (parseRanges cidrs)

/-- `walletNetworkAllows`; without a list every address is allowed. -/
def walletNetworkAllows (p : WalletAccessPolicy) (ip : Option Text) : Bool :=
  p.members = [] || inNetworks p.cidrs ip

structure CredentialFlags where
  deviceType : Option Text
  backedUp : Option Bool

def deviceBound (c : CredentialFlags) : Bool :=
  c.deviceType = some (js "singleDevice") && c.backedUp ≠ some true

def credentialAllowed (requiresSecurityKey : Bool) (c : CredentialFlags) : Bool :=
  !requiresSecurityKey || deviceBound c

def assetAllowed (p : WalletAccessPolicy) (asset : AssetCode) : Bool :=
  p.allowedAssets.all (asset ∈ ·)

inductive Role
  | owner | operator | viewer
deriving DecidableEq

def mandateRequired (p : WalletAccessPolicy) (role : Role) : Bool :=
  p.mandatesRequired && role ≠ .owner

/-! ## Changes -/

inductive AccessChange
  | networkTightened | networkRelaxed | securityKeysOn | securityKeysOff
  | assetsTightened | assetsRelaxed | mandatesOn | mandatesOff
deriving DecidableEq

def covers {α : Type} [DecidableEq α] (a b : List α) : Bool := b.all (· ∈ a)

/-- `pn.length === nn.length && covers(pn, nn)` -/
def same {α : Type} [DecidableEq α] (prev next : List α) : Bool :=
  prev.length = next.length && covers prev next

def networkChanges (pn nn : List Text) : List AccessChange :=
  if same pn nn then []
  -- an empty list is the loosest; otherwise each new network loosens
  else if (pn ≠ [] ∧ nn = []) ∨ (nn ≠ [] ∧ pn ≠ [] ∧ covers pn nn = false) then [.networkRelaxed]
  else [.networkTightened]

/-- The codes that a list of assets stands for. -/
def WalletAccessPolicy.assets (p : WalletAccessPolicy) : List AssetCode :=
  p.allowedAssets.getD AssetCode.all

def assetChanges (pa na : List AssetCode) : List AccessChange :=
  if same pa na then [] else if covers pa na then [.assetsTightened] else [.assetsRelaxed]

/-- A switch that was turned on or off. -/
def switched (prev next : Bool) (on off : AccessChange) : List AccessChange :=
  if prev = next then [] else if next then [on] else [off]

def accessChanges (prev next : WalletAccessPolicy) : List AccessChange :=
  networkChanges prev.cidrs next.cidrs ++
    switched prev.securityKeysOnly next.securityKeysOnly .securityKeysOn .securityKeysOff ++
    assetChanges prev.assets next.assets ++
    switched prev.mandatesRequired next.mandatesRequired .mandatesOn .mandatesOff

def isRelaxing (c : AccessChange) : Bool :=
  c = .networkRelaxed || c = .securityKeysOff || c = .assetsRelaxed || c = .mandatesOff

/-! ## The rule -/

/-- Something is allowed under `next` that was not allowed under `prev`. -/
inductive Loosens (prev next : WalletAccessPolicy) : Prop
  | address (ip : Option Text) (allowed : walletNetworkAllows next ip = true)
      (refused : walletNetworkAllows prev ip = false)
  | asset (a : AssetCode) (allowed : assetAllowed next a = true)
      (refused : assetAllowed prev a = false)
  | credential (c : CredentialFlags)
      (allowed : credentialAllowed next.securityKeysOnly c = true)
      (refused : credentialAllowed prev.securityKeysOnly c = false)
  | role (r : Role) (freed : mandateRequired next r = false)
      (required : mandateRequired prev r = true)

/-- Two sets of rules decide alike. -/
structure Alike (p q : WalletAccessPolicy) : Prop where
  address : ∀ ip, walletNetworkAllows p ip = walletNetworkAllows q ip
  asset : ∀ a, assetAllowed p a = assetAllowed q a
  credential : ∀ c,
    credentialAllowed p.securityKeysOnly c = credentialAllowed q.securityKeysOnly c
  role : ∀ r, mandateRequired p r = mandateRequired q r

/-- What is reported: each loosening, and nothing only where nothing changes. -/
structure Reported (prev next : WalletAccessPolicy) : Prop where
  loosened : Loosens prev next → ∃ c ∈ accessChanges prev next, isRelaxing c = true
  unchanged : accessChanges prev next = [] → Alike prev next

/-- All but the networks is as it was, every network of the new list was in the old one, and the
lists are of one length, but some address is in a network that is only in the old one. -/
structure Narrowed (prev next : WalletAccessPolicy) : Prop where
  keys : prev.securityKeysOnly = next.securityKeysOnly
  assets : same prev.assets next.assets = true
  mandates : prev.mandatesRequired = next.mandatesRequired
  length : prev.members.length = next.members.length
  covered : ∀ c ∈ next.cidrs, c ∈ prev.cidrs
  lost : ∃ ip, inNetworks prev.cidrs ip = true ∧ inNetworks next.cidrs ip = false

/-! ## Lists -/

theorem covers_iff {α : Type} [DecidableEq α] {a b : List α} :
    covers a b = true ↔ ∀ x ∈ b, x ∈ a := by
  simp [covers]

theorem same_iff {α : Type} [DecidableEq α] {a b : List α} :
    same a b = true ↔ a.length = b.length ∧ ∀ x ∈ b, x ∈ a := by
  unfold same
  rw [Bool.and_eq_true, decide_eq_true_eq, covers_iff]

/-- Of two lists of one length, a list without repetitions is all of the list that covers it. -/
theorem mem_iff_of_same {α : Type} [DecidableEq α] {a b : List α} (h : same a b = true)
    (hb : b.Nodup) (x : α) : x ∈ a ↔ x ∈ b := by
  obtain ⟨hlength, hcovers⟩ := same_iff.mp h
  have hperm : b.Perm a := (hb.subperm hcovers).perm_of_length_le hlength.le
  exact hperm.mem_iff.symm

theorem nodup_assets (row : Row) : (accessPolicyOf row).assets.Nodup := by
  have hall : AssetCode.all.Nodup := by decide
  unfold accessPolicyOf WalletAccessPolicy.assets assetsOf
  dsimp only
  split
  · exact distinct_nodup _
  · exact hall

theorem assetAllowed_iff {p : WalletAccessPolicy} {a : AssetCode} :
    assetAllowed p a = true ↔ a ∈ p.assets := by
  unfold assetAllowed WalletAccessPolicy.assets
  cases p.allowedAssets with
  | none =>
    have hall : a ∈ AssetCode.all := by cases a <;> decide
    simpa using hall
  | some list => simp

/-! ## Networks -/

/-- More networks hold more addresses. -/
theorem inNetworks_mono {a b : List Text} (h : ∀ c ∈ b, c ∈ a) {ip : Option Text}
    (hb : inNetworks b ip = true) : inNetworks a ip = true := by
  unfold inNetworks ipInRanges parseRanges at hb ⊢
  obtain ⟨t, ht, hb⟩ := (Option.any_eq_true _ _).mp hb
  rw [Bool.and_eq_true] at hb
  obtain ⟨hne, hb⟩ := hb
  obtain ⟨parsed, hparsed, hb⟩ := (Option.any_eq_true _ _).mp hb
  obtain ⟨r, hr, hin⟩ := List.any_eq_true.mp hb
  obtain ⟨raw, hraw, hread⟩ := List.mem_filterMap.mp hr
  refine (Option.any_eq_true _ _).mpr ⟨t, ht, ?_⟩
  rw [Bool.and_eq_true]
  refine ⟨hne, (Option.any_eq_true _ _).mpr ⟨parsed, hparsed, ?_⟩⟩
  exact List.any_eq_true.mpr ⟨r, List.mem_filterMap.mpr ⟨raw, h raw hraw, hread⟩, hin⟩

theorem cidrs_eq_nil {p : WalletAccessPolicy} : p.cidrs = [] ↔ p.members = [] :=
  List.map_eq_nil_iff

theorem walletNetworkAllows_eq_true {p : WalletAccessPolicy} {ip : Option Text} :
    walletNetworkAllows p ip = true ↔ p.cidrs = [] ∨ inNetworks p.cidrs ip = true := by
  unfold walletNetworkAllows
  rw [Bool.or_eq_true, decide_eq_true_eq, cidrs_eq_nil]

/-- An address that is newly allowed is reported. -/
theorem network_loosening {prev next : WalletAccessPolicy} {ip : Option Text}
    (hnext : walletNetworkAllows next ip = true) (hprev : walletNetworkAllows prev ip = false) :
    networkChanges prev.cidrs next.cidrs = [.networkRelaxed] := by
  have hrefused : ¬ (prev.cidrs = [] ∨ inNetworks prev.cidrs ip = true) := by
    rw [← walletNetworkAllows_eq_true, hprev]
    exact Bool.false_ne_true
  rw [not_or] at hrefused
  obtain ⟨hsome, hout⟩ := hrefused
  have hnew : next.cidrs = [] ∨ covers prev.cidrs next.cidrs = false := by
    rcases walletNetworkAllows_eq_true.mp hnext with hnil | hin
    · exact .inl hnil
    · refine .inr (Bool.eq_false_of_not_eq_true fun hcovers => hout ?_)
      exact inNetworks_mono (covers_iff.mp hcovers) hin
  have hnot : same prev.cidrs next.cidrs = false := by
    refine Bool.eq_false_of_not_eq_true fun hsame => ?_
    obtain ⟨hlength, hcovers⟩ := same_iff.mp hsame
    rcases hnew with hnil | hnew
    · rw [hnil, List.length_nil] at hlength
      exact hsome (List.length_eq_zero_iff.mp hlength)
    · rw [covers_iff.mpr hcovers] at hnew
      cases hnew
  unfold networkChanges
  rw [hnot, if_neg Bool.false_ne_true, if_pos]
  by_cases hnil : next.cidrs = []
  · exact .inl ⟨hsome, hnil⟩
  · exact .inr ⟨hnil, hsome, hnew.resolve_left hnil⟩

/-- An asset that is newly allowed is reported. -/
theorem asset_loosening {prev next : WalletAccessPolicy} {a : AssetCode}
    (hnext : assetAllowed next a = true) (hprev : assetAllowed prev a = false) :
    assetChanges prev.assets next.assets = [.assetsRelaxed] := by
  have hout : a ∉ prev.assets := by
    rw [← assetAllowed_iff, hprev]
    exact Bool.false_ne_true
  have hcovers : covers prev.assets next.assets = false :=
    Bool.eq_false_of_not_eq_true fun h => hout (covers_iff.mp h a (assetAllowed_iff.mp hnext))
  unfold assetChanges same
  rw [hcovers, Bool.and_false, if_neg Bool.false_ne_true, if_neg Bool.false_ne_true]

/-- Every loosening is reported as one. -/
theorem loosening_is_reported {prev next : WalletAccessPolicy} (h : Loosens prev next) :
    ∃ c ∈ accessChanges prev next, isRelaxing c = true := by
  unfold accessChanges
  cases h with
  | address ip hnext hprev =>
    refine ⟨.networkRelaxed, ?_, rfl⟩
    simp [network_loosening hnext hprev]
  | asset a hnext hprev =>
    refine ⟨.assetsRelaxed, ?_, rfl⟩
    simp [asset_loosening hnext hprev]
  | credential c hnext hprev =>
    refine ⟨.securityKeysOff, ?_, rfl⟩
    unfold credentialAllowed at hnext hprev
    cases hn : next.securityKeysOnly <;> cases hp : prev.securityKeysOnly <;>
      simp_all [switched]
  | role r hnext hprev =>
    refine ⟨.mandatesOff, ?_, rfl⟩
    unfold mandateRequired at hnext hprev
    cases hn : next.mandatesRequired <;> cases hp : prev.mandatesRequired <;>
      simp_all [switched]

theorem switched_eq_nil {prev next : Bool} {on off : AccessChange} :
    switched prev next on off = [] ↔ prev = next := by
  cases prev <;> cases next <;> simp [switched]

theorem networkChanges_eq_nil {pn nn : List Text} :
    networkChanges pn nn = [] ↔ same pn nn = true := by
  unfold networkChanges
  split_ifs <;> simp_all

theorem assetChanges_eq_nil {pa na : List AssetCode} :
    assetChanges pa na = [] ↔ same pa na = true := by
  unfold assetChanges
  split_ifs <;> simp_all

/-- Nothing is reported where the lists are the same by length and members. -/
theorem accessChanges_eq_nil {prev next : WalletAccessPolicy} : accessChanges prev next = [] ↔
    same prev.cidrs next.cidrs = true ∧ prev.securityKeysOnly = next.securityKeysOnly ∧
      same prev.assets next.assets = true ∧ prev.mandatesRequired = next.mandatesRequired := by
  unfold accessChanges
  rw [List.append_eq_nil_iff, List.append_eq_nil_iff, List.append_eq_nil_iff,
    networkChanges_eq_nil, switched_eq_nil, assetChanges_eq_nil, switched_eq_nil]
  tauto

/-- **Each loosening is reported, and nothing is reported only where nothing changes**, but for a
list that lost networks to repetitions. -/
theorem changes_are_reported_iff (prev next : Row) :
    Reported (accessPolicyOf prev) (accessPolicyOf next) ↔
      ¬ Narrowed (accessPolicyOf prev) (accessPolicyOf next) := by
  set p := accessPolicyOf prev with hp
  set n := accessPolicyOf next with hn
  have hlengths : p.cidrs.length = p.members.length ∧ n.cidrs.length = n.members.length :=
    ⟨List.length_map _, List.length_map _⟩
  constructor
  · rintro h hnarrow
    obtain ⟨ip, hin, hout⟩ := hnarrow.lost
    have hsame : same p.cidrs n.cidrs = true :=
      same_iff.mpr ⟨by rw [hlengths.1, hlengths.2, hnarrow.length], hnarrow.covered⟩
    have halike := h.unchanged (accessChanges_eq_nil.mpr
      ⟨hsame, hnarrow.keys, hnarrow.assets, hnarrow.mandates⟩)
    have hallowed : walletNetworkAllows n ip = true := by
      rw [← halike.address ip]
      exact walletNetworkAllows_eq_true.mpr (.inr hin)
    rcases walletNetworkAllows_eq_true.mp hallowed with hnil | hin'
    · have hzero : p.cidrs = [] := by
        rw [← List.length_eq_zero_iff, (same_iff.mp hsame).1, hnil, List.length_nil]
      rw [hzero] at hin
      unfold inNetworks ipInRanges parseRanges at hin
      simp at hin
    · rw [hout] at hin'
      cases hin'
  · intro hnot
    refine ⟨loosening_is_reported, ?_⟩
    intro hnil
    obtain ⟨hsame, hkeys, hassets, hmandates⟩ := accessChanges_eq_nil.mp hnil
    obtain ⟨hlength, hcovers⟩ := same_iff.mp hsame
    refine ⟨?_, ?_, fun c => by rw [hkeys], fun r => by unfold mandateRequired; rw [hmandates]⟩
    · intro ip
      have hempty : p.cidrs = [] ↔ n.cidrs = [] := by
        rw [← List.length_eq_zero_iff, hlength, List.length_eq_zero_iff]
      rw [Bool.eq_iff_iff, walletNetworkAllows_eq_true, walletNetworkAllows_eq_true, hempty]
      apply or_congr_right
      refine ⟨fun hin => ?_, inNetworks_mono hcovers⟩
      by_contra hout
      refine hnot ⟨hkeys, hassets, hmandates, ?_, hcovers, ip, hin,
        Bool.eq_false_of_not_eq_true hout⟩
      rw [← hlengths.1, ← hlengths.2, hlength]
    · intro a
      rw [Bool.eq_iff_iff, assetAllowed_iff, assetAllowed_iff]
      exact mem_iff_of_same hassets (nodup_assets next) a

/-- A list without repetitions loses no network unreported. -/
theorem not_narrowed_of_nodup {prev next : WalletAccessPolicy} (h : next.cidrs.Nodup) :
    ¬ Narrowed prev next := by
  intro hnarrow
  obtain ⟨ip, hin, hout⟩ := hnarrow.lost
  have hsame : same prev.cidrs next.cidrs = true := by
    refine same_iff.mpr ⟨?_, hnarrow.covered⟩
    unfold WalletAccessPolicy.cidrs
    rw [List.length_map, List.length_map, hnarrow.length]
  have hkept := inNetworks_mono (fun c hc => (mem_iff_of_same hsame h c).mp hc) hin
  rw [hout] at hkept
  cases hkept

/-- The stored rules with networks only. -/
def withNetworks (cidrs : List Text) : Row where
  networkPolicy := .obj [(js "members", .arr (cidrs.map fun c => .obj [(js "cidr", .str c)]))]
  securityKeysOnly := none
  allowedAssets := .null
  mandatesRequired := none

/-- One network takes the place of another and stands twice in the list: the other is closed, and
nothing is reported. -/
theorem repeated_network_closes_another :
    let prev := accessPolicyOf (withNetworks [js "10.9.0.0/24", js "10.8.0.0/24"])
    let next := accessPolicyOf (withNetworks [js "10.9.0.0/24", js "10.9.0.0/24"])
    accessChanges prev next = [] ∧ walletNetworkAllows prev (some (js "10.8.0.1")) = true ∧
      walletNetworkAllows next (some (js "10.8.0.1")) = false ∧ ¬ Reported prev next := by
  have h : (let prev := accessPolicyOf (withNetworks [js "10.9.0.0/24", js "10.8.0.0/24"])
      let next := accessPolicyOf (withNetworks [js "10.9.0.0/24", js "10.9.0.0/24"])
      accessChanges prev next = [] ∧ walletNetworkAllows prev (some (js "10.8.0.1")) = true ∧
        walletNetworkAllows next (some (js "10.8.0.1")) = false) := by
    decide
  obtain ⟨hnil, hprev, hnext⟩ := h
  refine ⟨hnil, hprev, hnext, ?_⟩
  intro hreported
  have halike := (hreported.unchanged hnil).address (some (js "10.8.0.1"))
  rw [hprev, hnext] at halike
  cases halike

end Klick.Access
