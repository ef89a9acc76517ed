-- The policy of the signer (`lib/wallet/core/policy.ts`). A policy comes as
-- JSON that nothing has typed, so it is kept as the value that was read, and
-- the checks make of its fields what JavaScript makes of them.
import Klick.NormalForm
import Klick.Networks
import Klick.Fields

open Js

namespace Klick

/-! ## Checks that can throw -/

/-- No check finds what it looks for; they run in order up to the first that does. -/
def noneFound : List (Except Exn Bool) → Except Exn Bool
  | [] => .ok true
  | check :: checks =>
    match check with
    | .error e => .error e
    | .ok true => .ok false
    | .ok false => noneFound checks

/-- Some check finds what it looks for. -/
def someFound (checks : List (Except Exn Bool)) : Except Exn Bool := do
  return !(← noneFound checks)

theorem noneFound_eq_true {checks : List (Except Exn Bool)} :
    noneFound checks = .ok true ↔ ∀ c ∈ checks, c = .ok false := by
  induction checks with
  | nil => simp [noneFound]
  | cons c cs ih =>
    unfold noneFound
    split
    · simp
    · simp
    · simp [ih]

/-! ## The issues of a policy -/

inductive PolicyIssue
  | version | mode | soloKeys | delay | cooldown | window | limits | feeCaps | networks | live
deriving DecidableEq, Repr

/-- The least values outside the development bundle, and inside it. -/
structure PolicyMin where
  soloMinKeys : ℤ
  whitelistCooldownSec : ℤ
  soloDelaySec : ℤ

/-- `PROD_MIN` -/
def prodMin : PolicyMin := ⟨2, 24 * 3600, 10 * 60⟩

def policyMin (dev : Bool) : PolicyMin := if dev then ⟨1, 0, 0⟩ else prodMin

/-- `!Number.isInteger(v) || v < least` -/
def notFrom (v : Value) (least : ℤ) : Bool :=
  match v.int? with
  | some z => z < least
  | none => true

/-- `!Number.isInteger(v) || v < least || v > most` -/
def notWithin (v : Value) (least most : ℤ) : Bool :=
  match v.int? with
  | some z => z < least || most < z
  | none => true

/-- A limit that is none, or has a bound that is no number, or more per payout than per day. -/
def limitBad (l : Value) : Except Exn Bool := do
  if !l.truthy then return true
  else
    let perPayout ← (l.get (js "perPayout")).toText
    let perDay ← (l.get (js "perDay")).toText
    if !isUint perPayout || !isUint perDay then return true
    else
      let most ← (l.get (js "perPayout")).toBigInt
      let day ← (l.get (js "perDay")).toBigInt
      return day < most

/-- `!(v > 0 && v <= 2000)` -/
def feeCapBad (v : Value) : Except Exn Bool := do
  if ← (Value.int 0).lt v then return !(← v.le (.int 2000)) else return true

/-- `NETWORKS[n].live`: a name that is no network throws. -/
def networkLive (n : Value) : Except Exn Bool := do
  let key ← n.toText
  match WalletNetwork.ofKey? key with
  | some network => return network.live
  | none => if key ∈ objectMembers then return false else .error .typeError

def policyMode (p : Value) : Value := p.get (js "mode")

/-- `if (bad) out.push(i)` -/
def issue (bad : Bool) (i : PolicyIssue) : List PolicyIssue := if bad then [i] else []

/-- Which issues the limits have: one for each bad limit. -/
def limitIssues : List (Text × Value) → Except Exn (List PolicyIssue)
  | [] => .ok []
  | (_, l) :: ls => do
    let bad ← limitBad l
    let issues ← limitIssues ls
    return if bad then .limits :: issues else issues

/-- The checks of the mode and of the integers, which never throw. -/
def integerIssues (p : Value) (dev : Bool) : List PolicyIssue :=
  let least := policyMin dev
  issue (notFrom (p.get (js "version")) 1) .version ++
    issue (!(policyMode p).isOneOf [js "solo", js "four_eyes"]) .mode ++
    issue (notFrom (p.get (js "soloMinKeys")) least.soloMinKeys) .soloKeys ++
    issue (notFrom (p.get (js "soloDelaySec")) least.soloDelaySec) .delay ++
    issue (notFrom (p.get (js "whitelistCooldownSec")) least.whitelistCooldownSec) .cooldown ++
    issue (notWithin (p.get (js "approvalWindowSec")) 60 (24 * 3600)) .window

/-- The checks of limits, fee caps and networks. -/
def otherIssues (p : Value) : Except Exn (List PolicyIssue) := do
  let limits ← match p.get (js "limits") with
    | .undefined => .error .typeError
    | .null => .error .typeError
    | limits => limitIssues limits.entries
  let caps := p.get (js "feeCaps")
  let btcBad ← feeCapBad (← caps.prop "btcSatPerVb")
  let capsBad ← if btcBad then pure true else feeCapBad (← caps.prop "ethMaxFeeGwei")
  let networks ← (p.get (js "networks")).items
  let unknown := networks.any fun n => !n.isOneOf (WalletNetwork.all.map WalletNetwork.key)
  let live ← if !(p.get (js "liveFunds")).same (.bool false) then pure true
    else someFound (networks.map networkLive)
  return limits ++ issue capsBad .feeCaps ++ issue unknown .networks ++ issue live .live

def policyIssues (p : Value) (dev : Bool) : Except Exn (List PolicyIssue) := do
  return (integerIssues p dev ++ (← otherIssues p)).dedup

theorem issue_eq_nil {bad : Bool} {i : PolicyIssue} : issue bad i = [] ↔ bad = false := by
  cases bad <;> simp [issue]

theorem notFrom_eq_false {v : Value} {least : ℤ} :
    notFrom v least = false ↔ ∃ z, v = .int z ∧ least ≤ z := by
  unfold notFrom
  cases h : v.int? with
  | none =>
    simp only [Bool.true_eq_false, false_iff, not_exists, not_and]
    rintro z rfl
    simp at h
  | some z =>
    obtain rfl := Value.int?_eq_some h
    simp [Value.int]

theorem notWithin_eq_false {v : Value} {least most : ℤ} :
    notWithin v least most = false ↔ ∃ z, v = .int z ∧ least ≤ z ∧ z ≤ most := by
  unfold notWithin
  cases h : v.int? with
  | none =>
    simp only [Bool.true_eq_false, false_iff, not_exists, not_and]
    rintro z rfl
    simp at h
  | some z =>
    obtain rfl := Value.int?_eq_some h
    simp [Value.int]

/-- What the checks of the integers have found of a policy without issues. -/
structure IntegersChecked (p : Value) (least : PolicyMin) : Prop where
  version : ∃ z, p.get (js "version") = .int z ∧ 1 ≤ z
  mode : (policyMode p).isOneOf [js "solo", js "four_eyes"] = true
  soloMinKeys : ∃ z, p.get (js "soloMinKeys") = .int z ∧ least.soloMinKeys ≤ z
  soloDelaySec : ∃ z, p.get (js "soloDelaySec") = .int z ∧ least.soloDelaySec ≤ z
  whitelistCooldownSec :
    ∃ z, p.get (js "whitelistCooldownSec") = .int z ∧ least.whitelistCooldownSec ≤ z
  approvalWindowSec :
    ∃ z, p.get (js "approvalWindowSec") = .int z ∧ 60 ≤ z ∧ z ≤ 24 * 3600

theorem integerIssues_eq_nil {p : Value} {dev : Bool} :
    integerIssues p dev = [] ↔ IntegersChecked p (policyMin dev) := by
  simp only [integerIssues, List.append_eq_nil_iff, issue_eq_nil, notFrom_eq_false,
    notWithin_eq_false, Bool.not_eq_false']
  constructor
  · rintro ⟨⟨⟨⟨⟨h1, h2⟩, h3⟩, h4⟩, h5⟩, h6⟩
    exact ⟨h1, h2, h3, h4, h5, h6⟩
  · rintro ⟨h1, h2, h3, h4, h5, h6⟩
    exact ⟨⟨⟨⟨⟨h1, h2⟩, h3⟩, h4⟩, h5⟩, h6⟩

theorem policyIssues_eq_nil {p : Value} {dev : Bool} :
    policyIssues p dev = .ok [] ↔ integerIssues p dev = [] ∧ otherIssues p = .ok [] := by
  unfold policyIssues
  cases h : otherIssues p with
  | error e => exact ⟨fun h => (nomatch h), fun h => (nomatch h.2)⟩
  | ok issues =>
    change Except.ok _ = Except.ok _ ↔ _
    simp [List.dedup_eq_nil]

/-- A fee cap that passes is a positive number of at most 2000, or becomes one. -/
theorem feeCapBad_eq_false {v : Value} :
    feeCapBad v = .ok false ↔ ∃ q, v.toNumber = .ok (.fin q) ∧ 0 < q ∧ q ≤ 2000 := by
  have hlt : (Value.int 0).lt v = v.toNumber >>= fun n => .ok ((Number.fin 0).lt n) := by
    simp [Value.lt, Value.int, Value.comparesAsText, Value.toNumber]
    rfl
  have hle : v.le (.int 2000) = v.toNumber >>= fun n => .ok (!n.isNaN && !(Number.fin 2000).lt n) := by
    simp [Value.le, Value.int, Value.comparesAsText, Value.toNumber, Number.isNaN]
  unfold feeCapBad
  rw [hlt, hle]
  cases hv : v.toNumber with
  | error e =>
    constructor
    · intro h
      cases h
    · rintro ⟨_, h, _⟩
      cases h
  | ok n =>
    cases n with
    | fin q =>
      change (if decide (0 < q) = true then Except.ok (!(true && !decide (2000 < q)))
        else Except.ok true) = _ ↔ _
      by_cases h0 : 0 < q
      · by_cases h1 : 2000 < q
        · simp [h0, h1]
        · simp [h0, h1, not_lt.mp h1]
      · simp [h0]
    | inf negative =>
      constructor
      · cases negative <;> (intro h; cases h)
      · rintro ⟨_, h, _⟩
        cases h
    | nan =>
      constructor
      · intro h
        cases h
      · rintro ⟨_, h, _⟩
        cases h

/-- What the other checks have found of a policy without issues. -/
structure OthersChecked (p : Value) : Prop where
  limitsObject : p.get (js "limits") ≠ .undefined ∧ p.get (js "limits") ≠ .null
  limits : limitIssues (p.get (js "limits")).entries = .ok []
  feeCaps : ∀ k ∈ ["btcSatPerVb", "ethMaxFeeGwei"],
    ∃ v, (p.get (js "feeCaps")).prop k = .ok v ∧ feeCapBad v = .ok false
  networks : ∃ items, p.get (js "networks") = .arr items ∧
    (∀ n ∈ items, n.isOneOf (WalletNetwork.all.map WalletNetwork.key) = true) ∧
    someFound (items.map networkLive) = .ok false
  liveFunds : (p.get (js "liveFunds")).same (.bool false) = true

theorem items_eq_ok {v : Value} {items : List Value} : v.items = .ok items ↔ v = .arr items := by
  cases v <;> simp [Value.items]

/-- The issues of the limits; limits that are none throw. -/
def issuesOfLimits (limits : Value) : Except Exn (List PolicyIssue) :=
  match limits with
  | .undefined => .error .typeError
  | .null => .error .typeError
  | limits => limitIssues limits.entries

def capsBad (caps : Value) : Except Exn Bool := do
  if ← feeCapBad (← caps.prop "btcSatPerVb") then return true
  else feeCapBad (← caps.prop "ethMaxFeeGwei")

def liveBad (liveFunds : Value) (networks : List Value) : Except Exn Bool :=
  if !liveFunds.same (.bool false) then .ok true else someFound (networks.map networkLive)

/-- The checks one after the other. -/
theorem otherIssues_eq (p : Value) : otherIssues p = (do
    let limits ← issuesOfLimits (p.get (js "limits"))
    let caps ← capsBad (p.get (js "feeCaps"))
    let networks ← (p.get (js "networks")).items
    let unknown := networks.any fun n => !n.isOneOf (WalletNetwork.all.map WalletNetwork.key)
    let live ← liveBad (p.get (js "liveFunds")) networks
    return limits ++ issue caps .feeCaps ++ issue unknown .networks ++ issue live .live) := by
  unfold otherIssues
  cases hlimits : p.get (js "limits")
  case undefined => rfl
  case null => rfl
  all_goals
    simp only [issuesOfLimits, capsBad, liveBad]
    congr 1
    funext limits
    cases (p.get (js "feeCaps")).prop "btcSatPerVb" with
    | error e => rfl
    | ok v =>
      cases hbad : feeCapBad v with
      | error e => simp [bind, Except.bind, hbad]
      | ok bad =>
        cases bad <;> cases (p.get (js "liveFunds")).same (.bool false) <;>
          simp [bind, Except.bind, pure, Except.pure, hbad]
        all_goals cases (p.get (js "feeCaps")).prop "ethMaxFeeGwei" <;> rfl

theorem issuesOfLimits_eq_nil {limits : Value} : issuesOfLimits limits = .ok [] ↔
    (limits ≠ .undefined ∧ limits ≠ .null) ∧ limitIssues limits.entries = .ok [] := by
  cases limits <;> simp [issuesOfLimits]

theorem capsBad_eq_false {caps : Value} : capsBad caps = .ok false ↔
    ∀ k ∈ ["btcSatPerVb", "ethMaxFeeGwei"], ∃ v, caps.prop k = .ok v ∧ feeCapBad v = .ok false := by
  simp only [List.forall_mem_cons, List.not_mem_nil, false_implies, implies_true, and_true,
    capsBad, bind_eq_ok]
  constructor
  · rintro ⟨v, hv, bad, hbad, h⟩
    cases bad with
    | true => cases h
    | false => exact ⟨⟨v, hv, hbad⟩, bind_eq_ok.mp h⟩
  · rintro ⟨⟨v, hv, hbad⟩, h⟩
    exact ⟨v, hv, false, hbad, bind_eq_ok.mpr h⟩

theorem liveBad_eq_false {liveFunds : Value} {networks : List Value} :
    liveBad liveFunds networks = .ok false ↔
      liveFunds.same (.bool false) = true ∧ someFound (networks.map networkLive) = .ok false := by
  unfold liveBad
  cases liveFunds.same (.bool false) <;> simp

theorem otherIssues_eq_nil {p : Value} : otherIssues p = .ok [] ↔ OthersChecked p := by
  rw [otherIssues_eq]
  simp only [bind_eq_ok]
  constructor
  · rintro ⟨limits, hl, caps, hc, networks, hn, live, hlive, h⟩
    have h := Except.ok.inj h
    simp only [List.append_eq_nil_iff, issue_eq_nil] at h
    obtain ⟨⟨⟨rfl, rfl⟩, hknown⟩, rfl⟩ := h
    obtain ⟨hobj, hl⟩ := issuesOfLimits_eq_nil.1 hl
    obtain ⟨hfunds, hlive⟩ := liveBad_eq_false.1 hlive
    refine ⟨hobj, hl, capsBad_eq_false.1 hc, ⟨networks, items_eq_ok.1 hn, ?_, hlive⟩, hfunds⟩
    simpa using hknown
  · rintro ⟨hobj, hl, hc, ⟨networks, hn, hknown, hlive⟩, hfunds⟩
    refine ⟨[], issuesOfLimits_eq_nil.2 ⟨hobj, hl⟩, false, capsBad_eq_false.2 hc, networks,
      items_eq_ok.2 hn, false, liveBad_eq_false.2 ⟨hfunds, hlive⟩, ?_⟩
    have hany : networks.any (fun n => !n.isOneOf (WalletNetwork.all.map WalletNetwork.key)) =
        false := by
      rw [List.any_eq_false]
      intro n hnm
      simp [hknown n hnm]
    simp [hany, issue]
    rfl

/-- A policy that passes outside the development bundle passes inside it. -/
theorem policyIssues_dev {p : Value} {dev : Bool} (h : policyIssues p dev = .ok []) :
    policyIssues p true = .ok [] := by
  rw [policyIssues_eq_nil] at h ⊢
  refine ⟨?_, h.2⟩
  cases dev with
  | true => exact h.1
  | false =>
    have hc := integerIssues_eq_nil.1 h.1
    refine integerIssues_eq_nil.2 ⟨hc.version, hc.mode, ?_, ?_, ?_, hc.approvalWindowSec⟩
    · obtain ⟨z, hz, hle⟩ := hc.soloMinKeys
      exact ⟨z, hz, le_trans (by decide) hle⟩
    · obtain ⟨z, hz, hle⟩ := hc.soloDelaySec
      exact ⟨z, hz, le_trans (by decide) hle⟩
    · obtain ⟨z, hz, hle⟩ := hc.whitelistCooldownSec
      exact ⟨z, hz, le_trans (by decide) hle⟩

/-! ## Tightening -/

/-- `next.k < prev.k` -/
def lessBy (k : String) (next prev : Value) : Except Exn Bool :=
  (next.get (js k)).lt (prev.get (js k))

/-- `next.feeCaps.k > prev.feeCaps.k` -/
def feeCapMore (k : String) (next prev : Value) : Except Exn Bool := do
  let cap ← (next.get (js "feeCaps")).prop k
  let before ← (prev.get (js "feeCaps")).prop k
  before.lt cap

/-- `BigInt(l.k) > BigInt(before.k)` -/
def limitMore (k : String) (l before : Value) : Except Exn Bool := do
  let bound ← (l.get (js k)).toBigInt
  let bound' ← (before.get (js k)).toBigInt
  return bound' < bound

/-- One limit that loosens: a new asset, or a higher bound. -/
def limitLooser (prev : Value) (f : Text × Value) : Except Exn Bool :=
  let before := (prev.get (js "limits")).member f.1
  if !before.truthy || !f.2.truthy then .ok true
  else someFound [limitMore "perPayout" f.2 before, limitMore "perDay" f.2 before]

/-- A network that was off before. -/
def networkNew (prev : Value) (n : Value) : Except Exn Bool := do
  let networks ← (prev.get (js "networks")).items
  return !networks.any fun m => m.same n

def isTightening (prev next : Value) : Except Exn Bool :=
  noneFound [
    .ok ((policyMode prev).same (.text "four_eyes") && (policyMode next).same (.text "solo")),
    lessBy "soloMinKeys" next prev,
    lessBy "soloDelaySec" next prev,
    lessBy "whitelistCooldownSec" next prev,
    lessBy "approvalWindowSec" prev next,
    feeCapMore "btcSatPerVb" next prev,
    feeCapMore "ethMaxFeeGwei" next prev,
    do
      let networks ← (next.get (js "networks")).items
      someFound (networks.map (networkNew prev)),
    .ok (!(next.get (js "liveFunds")).same (.bool false)),
    someFound ((next.get (js "limits")).entries.map (limitLooser prev))]

/-! ## Policies that passed -/

/-- A policy without issues. -/
structure Policy where
  raw : Value
  normal : raw.Normal
  checked : policyIssues raw true = .ok []

inductive PolicyMode
  | solo | fourEyes
deriving DecidableEq, Repr

namespace Policy

theorem ext_raw {p q : Policy} (h : p.raw = q.raw) : p = q := by
  cases p
  cases q
  cases h
  rfl

/-- The policy of a value, if it has no issues. -/
def ofValue? (v : Value) : Option Policy :=
  if h : v.Normal ∧ policyIssues v true = .ok [] then some ⟨v, h.1, h.2⟩ else none

@[simp] theorem ofValue?_raw (p : Policy) : ofValue? p.raw = some p :=
  dif_pos ⟨p.normal, p.checked⟩

/-- A field that the checks have found to be an integer. -/
def int (p : Policy) (k : String) : ℤ := (p.raw.get (js k)).int?.getD 0

def mode (p : Policy) : PolicyMode :=
  if (policyMode p.raw).same (.text "four_eyes") then .fourEyes else .solo

def version (p : Policy) : ℤ := p.int "version"
def soloMinKeys (p : Policy) : ℤ := p.int "soloMinKeys"
def soloDelaySec (p : Policy) : ℤ := p.int "soloDelaySec"
def whitelistCooldownSec (p : Policy) : ℤ := p.int "whitelistCooldownSec"
def approvalWindowSec (p : Policy) : ℤ := p.int "approvalWindowSec"

theorem integers (p : Policy) : IntegersChecked p.raw (policyMin true) :=
  integerIssues_eq_nil.1 (policyIssues_eq_nil.1 p.checked).1

/-- `policy.networks.includes(n)` -/
def includesNetwork (p : Policy) (n : WalletNetwork) : Bool :=
  match p.raw.get (js "networks") with
  | .arr items => items.any fun m => m.same (.str n.key)
  | _ => false

/-- `policy.limits[asset]` -/
def limit (p : Policy) (asset : AssetCode) : Value := (p.raw.get (js "limits")).get asset.text

/-- `policy.feeCaps[k]` -/
def feeCap (p : Policy) (k : String) : Value := (p.raw.get (js "feeCaps")).get (js k)

end Policy

/-! ## Spending -/

inductive SpendCheck
  | ok | assetNotAllowed | perPayout | perDay
deriving DecidableEq, Repr

/-- The bounds per payout and per day; the bounds have passed as numbers. -/
def spendAllowed (p : Policy) (asset : AssetCode) (amount signedLast24h : ℕ) :
    Except Exn SpendCheck := do
  let l := p.limit asset
  if !l.truthy then return .assetNotAllowed
  else if (← (l.get (js "perPayout")).toBigInt) < amount then return .perPayout
  else if (← (l.get (js "perDay")).toBigInt) < signedLast24h + amount then return .perDay
  else return .ok

/-! ## Approvals -/

structure Approval where
  personId : Text
  credentialId : Text
deriving DecidableEq, Repr

/-- Two persons in four-eyes mode; alone, one person with enough active keys. -/
def approvalsSatisfied (p : Policy) (approvals : List Approval) (activeKeys : Text → ℕ) : Bool :=
  let persons := (approvals.map (·.personId)).dedup
  match p.mode with
  | .fourEyes => 2 ≤ persons.length
  | .solo => persons.any fun person => p.soloMinKeys ≤ activeKeys person


/-! ## What tightening keeps -/

theorem int_of_get {p : Policy} {k : String} {z : ℤ} (h : p.raw.get (js k) = .int z) :
    p.int k = z := by
  simp [Policy.int, h]

theorem lessBy_eq_false {k : String} {next prev : Policy} {a b : ℤ}
    (ha : next.raw.get (js k) = .int a) (hb : prev.raw.get (js k) = .int b) :
    lessBy k next.raw prev.raw = .ok false ↔ prev.int k ≤ next.int k := by
  rw [int_of_get ha, int_of_get hb, lessBy, ha, hb, Value.lt_int]
  simp

theorem mode_fourEyes {p : Policy} :
    p.mode = .fourEyes ↔ (policyMode p.raw).same (.text "four_eyes") = true := by
  unfold Policy.mode
  split <;> simp [*]

/-- A policy is in the one mode or the other. -/
theorem mode_solo {p : Policy} :
    p.mode = .solo ↔ (policyMode p.raw).same (.text "solo") = true := by
  have hmode := p.integers.mode
  have hne : js "solo" ≠ js "four_eyes" := by decide
  unfold Policy.mode
  unfold Value.isOneOf at hmode
  split at hmode
  · rename_i t ht
    simp only [List.mem_cons, List.not_mem_nil, or_false, decide_eq_true_eq] at hmode
    rcases hmode with rfl | rfl
    · simp [ht, Value.same, Value.text, hne]
    · simp [ht, Value.same, Value.text, hne.symm]
  · cases hmode

/-- What `isTightening` has compared. -/
structure Tighter (prev next : Policy) : Prop where
  mode : ¬ (prev.mode = .fourEyes ∧ next.mode = .solo)
  soloMinKeys : prev.soloMinKeys ≤ next.soloMinKeys
  soloDelaySec : prev.soloDelaySec ≤ next.soloDelaySec
  whitelistCooldownSec : prev.whitelistCooldownSec ≤ next.whitelistCooldownSec
  approvalWindowSec : next.approvalWindowSec ≤ prev.approvalWindowSec

theorem tighter_of_isTightening {prev next : Policy}
    (h : isTightening prev.raw next.raw = .ok true) : Tighter prev next := by
  unfold isTightening at h
  rw [noneFound_eq_true] at h
  simp only [List.forall_mem_cons] at h
  obtain ⟨h1, h2, h3, h4, h5, -⟩ := h
  obtain ⟨a, ha, -⟩ := next.integers.soloMinKeys
  obtain ⟨b, hb, -⟩ := prev.integers.soloMinKeys
  obtain ⟨c, hc, -⟩ := next.integers.soloDelaySec
  obtain ⟨d, hd, -⟩ := prev.integers.soloDelaySec
  obtain ⟨e, he, -⟩ := next.integers.whitelistCooldownSec
  obtain ⟨f, hf, -⟩ := prev.integers.whitelistCooldownSec
  obtain ⟨g, hg, -⟩ := next.integers.approvalWindowSec
  obtain ⟨i, hi, -⟩ := prev.integers.approvalWindowSec
  refine ⟨?_, (lessBy_eq_false ha hb).mp h2, (lessBy_eq_false hc hd).mp h3,
    (lessBy_eq_false he hf).mp h4, (lessBy_eq_false hi hg).mp h5⟩
  rw [mode_fourEyes, mode_solo]
  simpa using h1

end Klick
