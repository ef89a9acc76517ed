-- The policy that the signer starts with (`defaultPolicy` of
-- `signer/service.ts`), which passes the checks that every later policy
-- passes, and what the signer makes of a policy: its hash and the fee ceiling.
import Klick.Policy
import Klick.CoinSelect
import Klick.Journal

open Js

namespace Klick

/-! ## The first policy -/

def limitValue (perPayout perDay : String) : Value :=
  .obj (named [("perPayout", .text perPayout), ("perDay", .text perDay)])

def defaultLimits : Value := .obj (named [
  ("BTC", limitValue "100000" "500000"),
  ("ETH", limitValue "50000000000000000" "200000000000000000"),
  ("EURC", limitValue "100000000" "500000000"),
  ("USDC", limitValue "100000000" "500000000")])

def defaultFeeCaps : Value := .obj (named [("btcSatPerVb", .int 50), ("ethMaxFeeGwei", .int 50)])

def defaultFields (networks : List WalletNetwork) (dev : Bool) : List (String × Value) := [
  ("version", .int 1), ("prev", .null), ("mode", .text "solo"),
  ("soloMinKeys", .int (if dev then 1 else 2)), ("soloDelaySec", .int (if dev then 0 else 30 * 60)),
  ("whitelistCooldownSec", .int (if dev then 0 else 24 * 3600)), ("approvalWindowSec", .int 3600),
  ("limits", defaultLimits), ("feeCaps", defaultFeeCaps),
  ("networks", .arr (networks.map fun n => .str n.key)), ("liveFunds", .bool false)]

theorem defaultFields_names (networks : List WalletNetwork) (dev : Bool) :
    (defaultFields networks dev).map Prod.fst = ["version", "prev", "mode", "soloMinKeys",
      "soloDelaySec", "whitelistCooldownSec", "approvalWindowSec", "limits", "feeCaps",
      "networks", "liveFunds"] := rfl

theorem defaultFields_ascii (networks : List WalletNetwork) (dev : Bool) :
    ∀ f ∈ defaultFields networks dev, isAsciiName f.1 = true := by
  intro f hf
  have hm := List.mem_map_of_mem (f := Prod.fst) hf
  rw [defaultFields_names] at hm
  revert hm
  generalize f.1 = name
  intro hm
  have hall : (["version", "prev", "mode", "soloMinKeys", "soloDelaySec", "whitelistCooldownSec",
      "approvalWindowSec", "limits", "feeCaps", "networks", "liveFunds"].all isAsciiName) = true := by
    decide +kernel
  exact List.all_eq_true.mp hall name hm

theorem defaultFields_nodup (networks : List WalletNetwork) (dev : Bool) :
    (keys (named (defaultFields networks dev))).Nodup := by
  rw [keys_named, defaultFields_names]
  decide +kernel

theorem networks_distinct (networks : List WalletNetwork) :
    (Value.arr (networks.map fun n => .str n.key)).Distinct := by
  change distinctItems _
  rw [distinctItems_iff]
  intro v hv
  obtain ⟨n, -, rfl⟩ := List.mem_map.mp hv
  exact trivial

theorem defaultFields_distinct (networks : List WalletNetwork) (dev : Bool) :
    (Value.obj (named (defaultFields networks dev))).Distinct := by
  refine ⟨defaultFields_nodup networks dev, ?_⟩
  have hlimits : defaultLimits.Distinct := by decide +kernel
  have hcaps : defaultFeeCaps.Distinct := by decide +kernel
  have hnetworks := networks_distinct networks
  simp only [defaultFields, named, List.map_cons, List.map_nil, distinctFields]
  exact ⟨trivial, trivial, trivial, trivial, trivial, trivial, trivial, hlimits, hcaps, hnetworks,
    trivial, trivial⟩

/-- The object of the policy, in normal form. -/
def defaultRaw (networks : List WalletNetwork) (dev : Bool) : Value :=
  canon (.obj (named (defaultFields networks dev)))

/-- A field of the policy, by its place in the list. -/
theorem get_defaultRaw (networks : List WalletNetwork) (dev : Bool) {k : String} {v : Value}
    (h : (k, v) ∈ defaultFields networks dev) :
    (defaultRaw networks dev).get (js k) = canon v := by
  have hd : ((defaultFields networks dev).map Prod.fst).Nodup := by
    rw [defaultFields_names]
    decide
  have hascii := defaultFields_ascii networks dev
  unfold defaultRaw
  rw [canon_get (defaultFields_nodup networks dev), get_named hascii (hascii _ h),
    namedGet_of_mem hd h]

theorem canon_networks (networks : List WalletNetwork) :
    canon (.arr (networks.map fun n => .str n.key)) =
      .arr (networks.map fun n => .str n.key) := by
  have hitems : ∀ ns : List WalletNetwork, canonItems (ns.map fun n => .str n.key) =
      ns.map fun n => .str n.key := by
    intro ns
    induction ns with
    | nil => rfl
    | cons n ns ih => simp [canonItems, canon, ih]
  exact congrArg Value.arr (hitems networks)

theorem integerIssues_default (networks : List WalletNetwork) (dev : Bool) :
    integerIssues (defaultRaw networks dev) dev = [] := by
  rw [integerIssues_eq_nil]
  have hget := fun k v => get_defaultRaw networks dev (k := k) (v := v)
  refine ⟨⟨1, hget _ (.int 1) (by simp [defaultFields]), by decide⟩, ?_, ?_, ?_, ?_, ?_⟩
  · rw [policyMode, get_defaultRaw networks dev (v := .text "solo") (by simp [defaultFields])]
    decide
  · refine ⟨if dev then 1 else 2, hget _ (.int _) (by simp [defaultFields]), ?_⟩
    cases dev <;> decide
  · refine ⟨if dev then 0 else 30 * 60, hget _ (.int _) (by simp [defaultFields]), ?_⟩
    cases dev <;> decide
  · refine ⟨if dev then 0 else 24 * 3600, hget _ (.int _) (by simp [defaultFields]), ?_⟩
    cases dev <;> decide
  · exact ⟨3600, hget _ (.int 3600) (by simp [defaultFields]), by decide, by decide⟩

/-- A network without real money passes. -/
theorem networkLive_key {n : WalletNetwork} (h : n.live = false) :
    networkLive (.str n.key) = .ok false := by
  have hkey : WalletNetwork.ofKey? n.key = some n := WalletNetwork.ofKey?_key n
  have htext : (Value.str n.key).toText = .ok n.key := rfl
  rw [networkLive, htext, ← h]
  simp only [bind, Except.bind, hkey, pure, Except.pure]

theorem otherIssues_default {networks : List WalletNetwork} (dev : Bool)
    (hlive : ∀ n ∈ networks, n.live = false) : otherIssues (defaultRaw networks dev) = .ok [] := by
  have hget := fun k v => get_defaultRaw networks dev (k := k) (v := v)
  rw [otherIssues_eq_nil]
  constructor
  · rw [hget "limits" defaultLimits (by simp [defaultFields])]
    decide
  · rw [hget "limits" defaultLimits (by simp [defaultFields])]
    decide
  · rw [hget "feeCaps" defaultFeeCaps (by simp [defaultFields])]
    intro k hk
    refine ⟨.int 50, ?_, ?_⟩
    · revert k
      decide
    · exact feeCapBad_eq_false.mpr ⟨50, rfl, by norm_num, by norm_num⟩
  · refine ⟨networks.map fun n => .str n.key, ?_, ?_, ?_⟩
    · rw [hget "networks" _ (by simp [defaultFields]; rfl), canon_networks]
    · intro v hv
      obtain ⟨n, -, rfl⟩ := List.mem_map.mp hv
      have hmem : n.key ∈ WalletNetwork.all.map WalletNetwork.key := List.mem_map_of_mem n.mem_all
      simp [Value.isOneOf, hmem]
    · unfold someFound
      rw [noneFound_eq_true.mpr]
      · rfl
      · intro c hc
        simp only [List.mem_map] at hc
        obtain ⟨_, ⟨n, hn, rfl⟩, rfl⟩ := hc
        exact networkLive_key (hlive n hn)
  · rw [hget "liveFunds" (.bool false) (by simp [defaultFields])]
    decide

/-- `defaultPolicy`, for networks without real money. -/
def defaultPolicy (networks : List WalletNetwork) (dev : Bool)
    (hlive : ∀ n ∈ networks, n.live = false) : Policy where
  raw := defaultRaw networks dev
  normal := ⟨distinct_canon _ (defaultFields_distinct networks dev), canon_canon _⟩
  checked := policyIssues_dev (policyIssues_eq_nil.mpr
    ⟨integerIssues_default networks dev, otherIssues_default dev hlive⟩)

/-! ## The hash of a policy -/

/-- `JSON.stringify(n)` -/
def Number.jsonText : Number → Text
  | .fin q => (Number.fin q).toText
  | _ => js "null"

mutual
/-- `canonicalJson` of `policy.ts`, on a value in normal form. -/
def policyText : Value → Text
  | .undefined => js "undefined"
  | .null => js "null"
  | .bool b => if b then js "true" else js "false"
  | .num n => Number.jsonText n
  | .str t => quote t
  | .arr items => ch '[' :: (join (ch ',') (policyItems items) ++ [ch ']'])
  | .obj fields => ch '{' :: (join (ch ',') (policyFields fields) ++ [ch '}'])
def policyItems : List Value → List Text
  | [] => []
  | v :: vs => policyText v :: policyItems vs
def policyFields : List (Text × Value) → List Text
  | [] => []
  | (k, v) :: fs => (quote k ++ ch ':' :: policyText v) :: policyFields fs
end

def policyHash (H : Sha256) (p : Policy) : Text := toHex (H.digest (utf8 (policyText p.raw)))

/-! ## The highest fee -/

/-- `GWEI` -/
def gwei : ℕ := 1000000000

/-- `MAX_BTC_INPUTS` -/
def maxBtcInputs : ℕ := 50

/-- `MAX_ETH_GAS` -/
def maxEthGas : ℕ := 100000

/-- A cap that is no integer throws. -/
def feeCeiling (n : WalletNetwork) (policy : Policy) : Except Exn ℤ := do
  match n.chain with
  | .bitcoin => return (← (policy.feeCap "btcSatPerVb").toBigInt) * estimateVsize maxBtcInputs 2
  | .ethereum => return (← (policy.feeCap "ethMaxFeeGwei").toBigInt) * gwei * maxEthGas

end Klick
