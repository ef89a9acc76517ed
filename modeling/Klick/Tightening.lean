-- What `isTightening` keeps over any number of policies. Every field that it
-- compares as an integer, a mode, a network or a limit is compared the same
-- way at each step. The fee caps are compared as JavaScript compares two
-- values of any type: two texts letter by letter.
import Klick.SignerPolicy
import Mathlib.Logic.Relation

open Js

namespace Klick

/-! ## Own properties -/

theorem lookup_mapIdx {α : Type} {w : α → Value} {items : List α} {k : Text} {v : Value}
    (h : (k, v) ∈ items.mapIdx fun i a => (decimal i, w a)) :
    lookup k (items.mapIdx fun i a => (decimal i, w a)) = some v := by
  have hd : (keys (items.mapIdx fun i a => (decimal i, w a))).Nodup := by
    rw [keys, List.nodup_iff_getElem?_ne_getElem?]
    intro i j hij hj
    simp only [List.length_map, List.length_mapIdx] at hj
    simp only [List.getElem?_map, List.getElem?_mapIdx, List.getElem?_eq_getElem hj,
      List.getElem?_eq_getElem (hij.trans hj), Option.map_some, ne_eq, Option.some.injEq]
    intro he
    exact hij.ne (decimal_injective he)
  exact (lookup_eq_some_iff hd k v).mpr h

theorem decimal_ne_length (i : ℕ) : decimal i ≠ js "length" := by
  intro h
  have := decimal_digits i (ch 'l') (by rw [h]; decide)
  exact absurd this (by decide)

/-- An own property is found by its name. -/
theorem get_of_mem_entries {v w : Value} (hd : v.Distinct) {k : Text} (h : (k, w) ∈ v.entries) :
    v.get k = w := by
  cases v with
  | obj fields =>
    rw [Value.get_obj, (lookup_eq_some_iff hd.1 k w).mpr h]
    rfl
  | arr items =>
    have hk : k ≠ js "length" := by
      obtain ⟨i, hi, he⟩ := List.mem_mapIdx.mp h
      cases he
      exact decimal_ne_length i
    simp only [Value.get, if_neg hk]
    rw [Value.entries, lookup_mapIdx (w := fun a => a) h]
    rfl
  | str t =>
    have hk : k ≠ js "length" := by
      obtain ⟨i, hi, he⟩ := List.mem_mapIdx.mp h
      cases he
      exact decimal_ne_length i
    simp only [Value.get, if_neg hk]
    rw [Value.entries, lookup_mapIdx (w := fun u => .str [u]) h]
    rfl
  | _ => cases h

/-- All that `get` finds is an own property, but for the length. -/
theorem mem_entries_of_get {v : Value} {k : Text} (hlen : k ≠ js "length")
    (h : v.get k ≠ .undefined) : (k, v.get k) ∈ v.entries := by
  have hget : v.get k = (lookup k v.entries).getD .undefined := by
    cases v <;> simp [Value.get, hlen]
  rw [hget] at h ⊢
  cases hl : lookup k v.entries with
  | none =>
    rw [hl] at h
    exact absurd rfl h
  | some w => exact mem_of_lookup hl

/-- Only an own property has properties of its own. -/
theorem mem_entries_of_member {v : Value} {k j : Text} (h : (v.member k).get j ≠ .undefined) :
    (k, v.member k) ∈ v.entries := by
  have hne : v.get k ≠ .undefined := by
    intro hu
    unfold Value.member at h
    rw [hu] at h
    by_cases hk : k ∈ objectMembers
    · simp [hk, lookup] at h
    · simp [hk, Value.get, Value.entries, lookup] at h
  have hm : v.member k = v.get k := by
    unfold Value.member
    split
    · contradiction
    · rfl
  rw [hm] at h ⊢
  by_cases hlen : k = js "length"
  · subst hlen
    cases v with
    | arr items => simp [Value.get, Value.entries, lookup] at h
    | str t => simp [Value.get, Value.entries, lookup] at h
    | obj fields =>
      rw [Value.get_obj] at hne ⊢
      cases hl : lookup (js "length") fields with
      | none => rw [hl] at hne; exact absurd rfl hne
      | some w => exact mem_of_lookup hl
    | _ => exact absurd rfl hne
  · exact mem_entries_of_get hlen hne

theorem distinct_entry {v w : Value} (hd : v.Distinct) {k : Text} (h : (k, w) ∈ v.entries) :
    w.Distinct := by
  cases v with
  | obj fields => exact distinctFields_iff.mp hd.2 _ h
  | arr items =>
    obtain ⟨i, hi, he⟩ := List.mem_mapIdx.mp h
    cases he
    exact distinctItems_iff.mp hd _ (List.getElem_mem hi)
  | str t =>
    obtain ⟨i, hi, he⟩ := List.mem_mapIdx.mp h
    cases he
    exact trivial
  | _ => cases h

theorem distinct_get {v : Value} (hd : v.Distinct) (k : Text) : (v.get k).Distinct := by
  have hlookup : ((lookup k v.entries).getD .undefined).Distinct := by
    cases hl : lookup k v.entries with
    | none => exact trivial
    | some w => exact distinct_entry hd (mem_of_lookup hl)
  unfold Value.get
  split
  · split_ifs
    · exact trivial
    · exact hlookup
  · split_ifs
    · exact trivial
    · exact hlookup
  · exact hlookup

/-! ## Limits -/

theorem someFound_eq_false {checks : List (Except Exn Bool)} :
    someFound checks = .ok false ↔ ∀ c ∈ checks, c = .ok false := by
  rw [← noneFound_eq_true]
  unfold someFound
  cases noneFound checks with
  | error e => exact ⟨fun h => (nomatch h), fun h => (nomatch h)⟩
  | ok b => cases b <;> simp [bind, Except.bind, pure, Except.pure]

def boundNames : List String := ["perPayout", "perDay"]

/-- Neither bound of the limit is above that of the other. -/
def BoundsLe (l before : Value) : Prop :=
  ∀ k ∈ boundNames, ∃ a b, (l.get (js k)).toBigInt = .ok a ∧ (before.get (js k)).toBigInt = .ok b ∧
    a ≤ b

theorem limitMore_eq_false {k : String} {l before : Value} : limitMore k l before = .ok false ↔
    ∃ a b, (l.get (js k)).toBigInt = .ok a ∧ (before.get (js k)).toBigInt = .ok b ∧ a ≤ b := by
  unfold limitMore
  simp only [bind_eq_ok]
  constructor
  · rintro ⟨a, ha, b, hb, h⟩
    exact ⟨a, b, ha, hb, not_lt.mp (of_decide_eq_false (Except.ok.inj h))⟩
  · rintro ⟨a, b, ha, hb, hle⟩
    exact ⟨a, ha, b, hb, congrArg Except.ok (decide_eq_false (not_lt.mpr hle))⟩

theorem limitLooser_eq_false {prev : Value} {f : Text × Value} :
    limitLooser prev f = .ok false ↔
      ((prev.get (js "limits")).member f.1).truthy = true ∧ f.2.truthy = true ∧
        BoundsLe f.2 ((prev.get (js "limits")).member f.1) := by
  unfold limitLooser
  simp only
  cases h1 : ((prev.get (js "limits")).member f.1).truthy with
  | false => simp
  | true =>
    cases h2 : f.2.truthy with
    | false => simp
    | true =>
      simp only [Bool.not_true, Bool.or_self, Bool.false_eq_true, if_false, true_and]
      rw [someFound_eq_false]
      simp only [List.forall_mem_cons, List.not_mem_nil, false_implies, implies_true, and_true,
        limitMore_eq_false, BoundsLe, boundNames]

theorem BoundsLe.trans {l m n : Value} (h1 : BoundsLe l m) (h2 : BoundsLe m n) : BoundsLe l n := by
  intro k hk
  obtain ⟨a, b, ha, hb, hab⟩ := h1 k hk
  obtain ⟨b', c, hb', hc, hbc⟩ := h2 k hk
  rw [hb] at hb'
  cases hb'
  exact ⟨a, c, ha, hc, hab.trans hbc⟩

/-- A limit that passes has two bounds. -/
theorem bounds_of_limitBad {l : Value} (h : limitBad l = .ok false) :
    l.truthy = true ∧ BoundsLe l l := by
  unfold limitBad at h
  cases hl : l.truthy with
  | false => rw [hl] at h; cases h
  | true =>
    rw [hl] at h
    simp only [Bool.not_true, Bool.false_eq_true, if_false, bind_eq_ok] at h
    obtain ⟨perPayout, -, perDay, -, h⟩ := h
    split_ifs at h
    · cases h
    · obtain ⟨a, ha, h⟩ := bind_eq_ok.mp h
      obtain ⟨b, hb, -⟩ := bind_eq_ok.mp h
      refine ⟨rfl, ?_⟩
      intro k hk
      simp only [boundNames, List.mem_cons, List.not_mem_nil, or_false] at hk
      rcases hk with rfl | rfl
      · exact ⟨a, a, ha, ha, le_rfl⟩
      · exact ⟨b, b, hb, hb, le_rfl⟩

theorem limitIssues_eq_nil {ls : List (Text × Value)} :
    limitIssues ls = .ok [] ↔ ∀ f ∈ ls, limitBad f.2 = .ok false := by
  induction ls with
  | nil => exact ⟨fun _ => by simp, fun _ => rfl⟩
  | cons f ls ih =>
    obtain ⟨k, l⟩ := f
    simp only [limitIssues, bind_eq_ok, List.forall_mem_cons, ← ih]
    constructor
    · rintro ⟨bad, hbad, issues, hissues, h⟩
      cases bad with
      | true => cases h
      | false =>
        cases h
        exact ⟨hbad, hissues⟩
    · rintro ⟨hbad, hissues⟩
      exact ⟨false, hbad, [], hissues, rfl⟩

namespace Policy

theorem others (p : Policy) : OthersChecked p.raw :=
  otherIssues_eq_nil.mp (policyIssues_eq_nil.mp p.checked).2

/-- `policy.limits` -/
def limits (p : Policy) : Value := p.raw.get (js "limits")

theorem bounds_of_mem {p : Policy} {k : Text} {l : Value} (h : (k, l) ∈ p.limits.entries) :
    l.truthy = true ∧ BoundsLe l l :=
  bounds_of_limitBad (limitIssues_eq_nil.1 p.others.limits _ h)

/-- A limit is found by the name of its asset. -/
theorem member_of_mem {p : Policy} {k : Text} {l : Value} (h : (k, l) ∈ p.limits.entries) :
    p.limits.member k = l := by
  have hl : p.limits.get k = l := get_of_mem_entries (distinct_get p.normal.distinct _) h
  have htruthy := (bounds_of_mem h).1
  unfold Value.member
  rw [hl]
  split
  · cases htruthy
  · rfl

/-- A limit with two bounds is an own property. -/
theorem mem_of_bounds {p : Policy} {k : Text} {l : Value} (h : BoundsLe l (p.limits.member k)) :
    (k, p.limits.member k) ∈ p.limits.entries := by
  apply mem_entries_of_member (j := js "perPayout")
  intro hu
  obtain ⟨a, b, -, hb, -⟩ := h "perPayout" (by simp [boundNames])
  rw [hu] at hb
  cases hb

/-- Only texts are networks. -/
theorem networks_texts (p : Policy) : ∃ items, p.raw.get (js "networks") = .arr items ∧
    ∀ v ∈ items, ∃ n : WalletNetwork, v = .str n.key := by
  obtain ⟨items, hitems, hknown, -⟩ := p.others.networks
  refine ⟨items, hitems, ?_⟩
  intro v hv
  have h := hknown v hv
  unfold Value.isOneOf at h
  split at h
  · obtain ⟨n, -, hn⟩ := List.mem_map.mp (of_decide_eq_true h)
    exact ⟨n, by rw [hn]⟩
  · cases h

end Policy

/-! ## What `isTightening` compares -/

/-- The names of the fee caps. -/
def feeCapNames : List String := ["btcSatPerVb", "ethMaxFeeGwei"]

/-- All that `isTightening` compares, the fee caps left out. -/
structure TighterBesidesFees (prev next : Policy) : Prop extends Tighter prev next where
  networks : ∀ n, next.includesNetwork n = true → prev.includesNetwork n = true
  limits : ∀ k l, (k, l) ∈ next.limits.entries →
    ∃ before, (k, before) ∈ prev.limits.entries ∧ BoundsLe l before

theorem lessBy_iff {k : String} {p q : Policy} {least : ℤ}
    (hp : ∃ z, p.raw.get (js k) = .int z ∧ least ≤ z)
    (hq : ∃ z, q.raw.get (js k) = .int z ∧ least ≤ z) :
    lessBy k q.raw p.raw = .ok false ↔ p.int k ≤ q.int k := by
  obtain ⟨a, ha, -⟩ := hp
  obtain ⟨b, hb, -⟩ := hq
  exact lessBy_eq_false hb ha

theorem networksNew_iff {prev next : Policy} :
    (do
      let networks ← (next.raw.get (js "networks")).items
      someFound (networks.map (networkNew prev.raw))) = .ok false ↔
      ∀ n, next.includesNetwork n = true → prev.includesNetwork n = true := by
  obtain ⟨items, hitems, htexts⟩ := next.networks_texts
  obtain ⟨before, hbefore, hbeforeTexts⟩ := prev.networks_texts
  have hnew : ∀ n : WalletNetwork, networkNew prev.raw (.str n.key) = .ok false ↔
      prev.includesNetwork n = true := by
    intro n
    simp [networkNew, Policy.includesNetwork, hbefore, Value.items, bind, Except.bind, pure,
      Except.pure]
  have hincludes : ∀ n : WalletNetwork, next.includesNetwork n = true ↔ .str n.key ∈ items := by
    intro n
    simp only [Policy.includesNetwork, hitems, List.any_eq_true]
    constructor
    · rintro ⟨v, hv, hsame⟩
      obtain ⟨m, rfl⟩ := htexts v hv
      simp only [Value.same, decide_eq_true_eq] at hsame
      rwa [← hsame]
    · intro hm
      exact ⟨_, hm, by simp [Value.same]⟩
  rw [hitems]
  change someFound (items.map (networkNew prev.raw)) = _ ↔ _
  rw [someFound_eq_false]
  constructor
  · intro h n hn
    exact (hnew n).mp (h _ (List.mem_map_of_mem ((hincludes n).mp hn)))
  · intro h c hc
    obtain ⟨v, hv, rfl⟩ := List.mem_map.mp hc
    obtain ⟨n, rfl⟩ := htexts v hv
    exact (hnew n).mpr (h n ((hincludes n).mpr hv))

theorem limitsLooser_iff {prev next : Policy} :
    someFound ((next.raw.get (js "limits")).entries.map (limitLooser prev.raw)) = .ok false ↔
      ∀ k l, (k, l) ∈ next.limits.entries →
        ∃ before, (k, before) ∈ prev.limits.entries ∧ BoundsLe l before := by
  rw [someFound_eq_false]
  constructor
  · intro h k l hl
    obtain ⟨-, -, hle⟩ := limitLooser_eq_false.1 (h _ (List.mem_map_of_mem hl))
    exact ⟨_, Policy.mem_of_bounds hle, hle⟩
  · intro h c hc
    obtain ⟨⟨k, l⟩, hl, rfl⟩ := List.mem_map.mp hc
    obtain ⟨before, hbefore, hle⟩ := h k l hl
    have hm := Policy.member_of_mem hbefore
    unfold Policy.limits at hm
    rw [limitLooser_eq_false, hm]
    exact ⟨(Policy.bounds_of_mem hbefore).1, (Policy.bounds_of_mem hl).1, hle⟩

theorem isTightening_eq_true {prev next : Policy} :
    isTightening prev.raw next.raw = .ok true ↔ TighterBesidesFees prev next ∧
      ∀ k ∈ feeCapNames, feeCapMore k next.raw prev.raw = .ok false := by
  have hmode : ((policyMode prev.raw).same (.text "four_eyes") &&
      (policyMode next.raw).same (.text "solo")) = false ↔
      ¬ (prev.mode = .fourEyes ∧ next.mode = .solo) := by
    rw [mode_fourEyes, mode_solo, ← Bool.and_eq_true, Bool.not_eq_true]
  have hwindow : ∀ p : Policy, ∃ z, p.raw.get (js "approvalWindowSec") = .int z ∧ 60 ≤ z := by
    intro p
    obtain ⟨z, hz, hle, -⟩ := p.integers.approvalWindowSec
    exact ⟨z, hz, hle⟩
  unfold isTightening
  rw [noneFound_eq_true]
  simp only [List.forall_mem_cons, List.not_mem_nil, false_implies, implies_true, and_true,
    Except.ok.injEq, hmode, lessBy_iff prev.integers.soloMinKeys next.integers.soloMinKeys,
    lessBy_iff prev.integers.soloDelaySec next.integers.soloDelaySec,
    lessBy_iff prev.integers.whitelistCooldownSec next.integers.whitelistCooldownSec,
    lessBy_iff (hwindow next) (hwindow prev), networksNew_iff, limitsLooser_iff,
    next.others.liveFunds, Bool.not_true, feeCapNames, true_and]
  constructor
  · rintro ⟨h1, h2, h3, h4, h5, h6, h7, h8, h9⟩
    exact ⟨⟨⟨h1, h2, h3, h4, h5⟩, h8, h9⟩, h6, h7⟩
  · rintro ⟨⟨⟨h1, h2, h3, h4, h5⟩, h8, h9⟩, h6, h7⟩
    exact ⟨h1, h2, h3, h4, h5, h6, h7, h8, h9⟩

theorem TighterBesidesFees.refl (p : Policy) : TighterBesidesFees p p where
  mode := by
    rintro ⟨h1, h2⟩
    rw [h1] at h2
    cases h2
  soloMinKeys := le_rfl
  soloDelaySec := le_rfl
  whitelistCooldownSec := le_rfl
  approvalWindowSec := le_rfl
  networks := fun _ h => h
  limits := fun _ l h => ⟨l, h, (Policy.bounds_of_mem h).2⟩

theorem TighterBesidesFees.trans {p q r : Policy} (h1 : TighterBesidesFees p q)
    (h2 : TighterBesidesFees q r) : TighterBesidesFees p r where
  mode := by
    rintro ⟨hp, hr⟩
    cases hq : q.mode with
    | solo => exact h1.mode ⟨hp, hq⟩
    | fourEyes => exact h2.mode ⟨hq, hr⟩
  soloMinKeys := h1.soloMinKeys.trans h2.soloMinKeys
  soloDelaySec := h1.soloDelaySec.trans h2.soloDelaySec
  whitelistCooldownSec := h1.whitelistCooldownSec.trans h2.whitelistCooldownSec
  approvalWindowSec := h2.approvalWindowSec.trans h1.approvalWindowSec
  networks := fun n h => h1.networks n (h2.networks n h)
  limits := by
    intro k l hl
    obtain ⟨m, hm, hlm⟩ := h2.limits k l hl
    obtain ⟨n, hn, hmn⟩ := h1.limits k m hm
    exact ⟨n, hn, hlm.trans hmn⟩

/-! ## Fee caps as numbers -/

namespace Policy

/-- The number that a fee cap is, or becomes. -/
def cap (p : Policy) (k : String) : ℚ :=
  match (p.feeCap k).toNumber with
  | .ok (.fin q) => q
  | _ => 0

theorem prop_eq_ok {v w : Value} {k : String} (h : v.prop k = .ok w) : w = v.get (js k) := by
  cases v <;> simp_all [Value.prop]

theorem cap_spec (p : Policy) {k : String} (hk : k ∈ feeCapNames) :
    (p.raw.get (js "feeCaps")).prop k = .ok (p.feeCap k) ∧
      (p.feeCap k).toNumber = .ok (.fin (p.cap k)) ∧ 0 < p.cap k ∧ p.cap k ≤ 2000 := by
  obtain ⟨v, hv, hbad⟩ := p.others.feeCaps k hk
  obtain ⟨q, hq, h0, h1⟩ := feeCapBad_eq_false.mp hbad
  have hcap : v = p.feeCap k := prop_eq_ok hv
  have hnum : p.cap k = q := by simp [cap, ← hcap, hq]
  rw [← hcap, hnum]
  exact ⟨hv, hq, h0, h1⟩

end Policy

/-- How two fee caps are compared: two texts letter by letter, all else as numbers. -/
theorem feeCapMore_eq_false {prev next : Policy} {k : String} (hk : k ∈ feeCapNames) :
    feeCapMore k next.raw prev.raw = .ok false ↔
      (prev.feeCap k).lt (next.feeCap k) = .ok false := by
  unfold feeCapMore
  rw [(next.cap_spec hk).1, (prev.cap_spec hk).1]
  rfl

theorem lt_of_number {prev next : Policy} {k : String} (hk : k ∈ feeCapNames)
    (ht : ((prev.feeCap k).comparesAsText && (next.feeCap k).comparesAsText) = false) :
    (prev.feeCap k).lt (next.feeCap k) = .ok (decide (prev.cap k < next.cap k)) := by
  unfold Value.lt
  rw [ht, (next.cap_spec hk).2.1, (prev.cap_spec hk).2.1]
  rfl

theorem lt_self (p : Policy) {k : String} (hk : k ∈ feeCapNames) :
    (p.feeCap k).lt (p.feeCap k) = .ok false := by
  cases ht : (p.feeCap k).comparesAsText with
  | false =>
    rw [lt_of_number hk (by rw [ht]; rfl)]
    simp
  | true =>
    have hnum := (p.cap_spec hk).2.1
    have htext : ∃ t, (p.feeCap k).toText = .ok t := by
      cases hv : p.feeCap k with
      | str t => exact ⟨t, rfl⟩
      | arr items =>
        rw [hv] at hnum
        obtain ⟨t, h, -⟩ := bind_eq_ok.mp hnum
        exact ⟨t, h⟩
      | obj fields =>
        rw [hv] at hnum
        obtain ⟨t, h, -⟩ := bind_eq_ok.mp hnum
        exact ⟨t, h⟩
      | _ => rw [hv] at ht; cases ht
    obtain ⟨t, h⟩ := htext
    unfold Value.lt
    simp [ht, h, bind, Except.bind, pure, Except.pure]

/-! ## The fee ceiling -/

theorem fl_small {z : ℤ} {q : ℚ} (h : fl (z : ℚ) = q) (h0 : 0 < q) (h1 : q ≤ 2000) : q = z := by
  have hle : z ≤ 2000 := by
    by_contra hgt
    have : ((2001 : ℤ) : ℚ) ≤ fl (z : ℚ) :=
      intCast_le_fl (by norm_num) (by exact_mod_cast (by omega : (2001 : ℤ) ≤ z))
    push_cast at this
    linarith
  have hpos : 0 ≤ z := by
    by_contra hneg
    have : fl (z : ℚ) ≤ ((0 : ℤ) : ℚ) :=
      fl_le_intCast (by norm_num) (by exact_mod_cast (by omega : z ≤ 0))
    push_cast at this
    linarith
  rw [← h, fl_intCast]
  rw [abs_of_nonneg hpos]
  exact hle.trans (by norm_num)

theorem ofRat_eq_fin {p q : ℚ} (h : Number.ofRat p = .fin q) : q = fl p := by
  unfold Number.ofRat at h
  split_ifs at h
  exact (Number.fin.inj h).symm

theorem decimalValue_digits {r : Text} (hne : r ≠ []) (h : r.all isDigit = true) :
    decimalValue r = some (natOf r : ℚ) := by
  have hall := List.all_eq_true.mp h
  have hspan : r.span isDigit = (r, []) := by
    rw [List.span_eq_takeWhile_dropWhile, List.takeWhile_eq_self_iff.mpr hall,
      List.dropWhile_eq_nil_iff.mpr hall]
  unfold decimalValue
  rw [hspan]
  simp [hne, parseExponent]

/-- An integer and a number of one text. -/
theorem textNumber_of_textBigInt {t : Text} {z : ℤ} {q : ℚ} (hz : textBigInt t = .ok z)
    (hq : textNumber t = .fin q) (h0 : 0 < q) (h1 : q ≤ 2000) : q = z := by
  unfold textBigInt at hz
  unfold textNumber at hq
  simp only at hz hq
  by_cases hnil : trim t = []
  · rw [if_pos hnil] at hq
    cases hq
    exact absurd h0 (lt_irrefl 0)
  · rw [if_neg hnil] at hz hq
    cases hp : prefixedValue (trim t) with
    | some n =>
      rw [hp] at hz hq
      cases hz
      apply fl_small _ h0 h1
      exact_mod_cast (ofRat_eq_fin hq).symm
    | none =>
      rw [hp] at hz hq
      simp only at hz hq
      by_cases hdigits : (Js.signed (trim t)).2 ≠ [] ∧ (Js.signed (trim t)).2.all isDigit = true
      · rw [if_pos hdigits] at hz
        have hinf : (Js.signed (trim t)).2 ≠ js "Infinity" := by
          intro he
          have hd := List.all_eq_true.mp hdigits.2 (ch 'I') (by rw [he]; decide)
          exact absurd hd (by decide)
        rw [if_neg hinf, decimalValue_digits hdigits.1 hdigits.2] at hq
        cases hz
        apply fl_small _ h0 h1
        rw [ofRat_eq_fin hq]
        split_ifs <;> push_cast <;> rfl
      · rw [if_neg hdigits] at hz
        cases hz

theorem number_of_bigInt {v : Value} {z : ℤ} {q : ℚ} (hz : v.toBigInt = .ok z)
    (hq : v.toNumber = .ok (.fin q)) (h0 : 0 < q) (h1 : q ≤ 2000) : q = z := by
  have htext : ∀ {w : Value}, (w.toText >>= fun t => textBigInt t) = .ok z →
      (w.toText >>= fun t => .ok (textNumber t)) = .ok (.fin q) → q = z := by
    intro w hz hq
    obtain ⟨t, ht, hz⟩ := bind_eq_ok.mp hz
    obtain ⟨t', ht', hq⟩ := bind_eq_ok.mp hq
    rw [ht] at ht'
    cases ht'
    exact textNumber_of_textBigInt hz (Except.ok.inj hq) h0 h1
  cases v with
  | undefined => cases hz
  | null => cases hz
  | bool b =>
    cases hz
    cases hq
    cases b <;> simp
  | num n =>
    cases hq
    unfold Value.toBigInt at hz
    simp only at hz
    split at hz
    · rename_i w hw
      cases hz
      exact Number.fin.inj (Number.int?_eq_some hw)
    · cases hz
  | str t => exact htext (w := .str t) hz hq
  | arr items => exact htext (w := .arr items) hz hq
  | obj fields => exact htext (w := .obj fields) hz hq

/-- A lower cap gives a lower ceiling. -/
theorem feeCeiling_mono {first last : Policy}
    (h : ∀ k ∈ feeCapNames, last.cap k ≤ first.cap k) {n : WalletNetwork} {c c' : ℤ}
    (hl : feeCeiling n last = .ok c) (hf : feeCeiling n first = .ok c') : c ≤ c' := by
  have hcap : ∀ k ∈ feeCapNames, ∀ a b, (last.feeCap k).toBigInt = .ok a →
      (first.feeCap k).toBigInt = .ok b → a ≤ b := by
    intro k hk a b ha hb
    obtain ⟨-, hn, h0, h1⟩ := last.cap_spec hk
    obtain ⟨-, hn', h0', h1'⟩ := first.cap_spec hk
    have hle := h k hk
    rw [number_of_bigInt ha hn h0 h1, number_of_bigInt hb hn' h0' h1'] at hle
    exact_mod_cast hle
  unfold feeCeiling at hl hf
  cases hc : n.chain with
  | bitcoin =>
    rw [hc] at hl hf
    obtain ⟨a, ha, hl⟩ := bind_eq_ok.mp hl
    obtain ⟨b, hb, hf⟩ := bind_eq_ok.mp hf
    cases hl
    cases hf
    have hab := hcap "btcSatPerVb" (by simp [feeCapNames]) a b ha hb
    exact mul_le_mul_of_nonneg_right hab (by positivity)
  | ethereum =>
    rw [hc] at hl hf
    obtain ⟨a, ha, hl⟩ := bind_eq_ok.mp hl
    obtain ⟨b, hb, hf⟩ := bind_eq_ok.mp hf
    cases hl
    cases hf
    have hab := hcap "ethMaxFeeGwei" (by simp [feeCapNames]) a b ha hb
    exact mul_le_mul_of_nonneg_right (mul_le_mul_of_nonneg_right hab (by positivity))
      (by positivity)

/-! ## Spending under a tighter policy -/

/-- What `spendAllowed` lets through. -/
theorem spendAllowed_ok {p : Policy} {asset : AssetCode} {amount sum : ℕ} :
    spendAllowed p asset amount sum = .ok .ok ↔ (p.limit asset).truthy = true ∧
      ∃ most day : ℤ, ((p.limit asset).get (js "perPayout")).toBigInt = .ok most ∧
        ((p.limit asset).get (js "perDay")).toBigInt = .ok day ∧ (amount : ℤ) ≤ most ∧
        (sum + amount : ℤ) ≤ day := by
  unfold spendAllowed
  simp only
  cases (p.limit asset).truthy with
  | false => simp [pure, Except.pure]
  | true =>
    simp only [Bool.not_true, Bool.false_eq_true, if_false, bind_eq_ok, true_and]
    constructor
    · rintro ⟨most, hmost, h⟩
      split_ifs at h with h1
      · cases h
      · obtain ⟨day, hday, h⟩ := bind_eq_ok.mp h
        split_ifs at h with h2
        · cases h
        · exact ⟨most, day, hmost, hday, not_lt.mp h1, not_lt.mp h2⟩
    · rintro ⟨most, day, hmost, hday, h1, h2⟩
      refine ⟨most, hmost, ?_⟩
      rw [if_neg (not_lt.mpr h1), bind_eq_ok]
      exact ⟨day, hday, by rw [if_neg (not_lt.mpr h2)]; rfl⟩

theorem asset_not_member : ∀ asset : AssetCode, asset.text ∉ objectMembers := by
  intro asset
  cases asset <;> decide +kernel

/-- The limit of an asset, as a member of the limits. -/
theorem limit_eq_member (p : Policy) (asset : AssetCode) :
    p.limits.member asset.text = p.limit asset := by
  unfold Value.member Policy.limit Policy.limits
  split
  · rename_i h
    rw [if_neg (asset_not_member asset), h]
  · rfl

theorem TighterBesidesFees.limit {prev next : Policy} (h : TighterBesidesFees prev next)
    {asset : AssetCode} (hl : (next.limit asset).truthy = true) :
    (prev.limit asset).truthy = true ∧ BoundsLe (next.limit asset) (prev.limit asset) := by
  have hmem : (asset.text, next.limit asset) ∈ next.limits.entries := by
    apply mem_entries_of_get
    · cases asset <;> decide
    · intro hu
      unfold Policy.limit at hl
      rw [Policy.limits] at hu
      rw [hu] at hl
      cases hl
  obtain ⟨before, hbefore, hle⟩ := h.limits _ _ hmem
  rw [← limit_eq_member prev, Policy.member_of_mem hbefore]
  exact ⟨(Policy.bounds_of_mem hbefore).1, hle⟩

theorem BoundsLe.spend {p q : Policy} {asset : AssetCode} {amount sum : ℕ}
    (htruthy : (p.limit asset).truthy = true) (h : BoundsLe (q.limit asset) (p.limit asset))
    (hq : spendAllowed q asset amount sum = .ok .ok) : spendAllowed p asset amount sum = .ok .ok := by
  obtain ⟨-, most, day, hmost, hday, h1, h2⟩ := spendAllowed_ok.1 hq
  obtain ⟨a, b, ha, hb, hab⟩ := h "perPayout" (by simp [boundNames])
  obtain ⟨c, d, hc, hd, hcd⟩ := h "perDay" (by simp [boundNames])
  rw [hmost] at ha
  rw [hday] at hc
  cases ha
  cases hc
  exact spendAllowed_ok.2 ⟨htruthy, b, d, hb, hd, h1.trans hab, h2.trans hcd⟩

/-! ## Chains of policies -/

/-- Each policy tightens the one before it. -/
def TightenedTo : Policy → Policy → Prop :=
  Relation.ReflTransGen fun prev next => isTightening prev.raw next.raw = .ok true

/-- Whatever the last policy lets through, the first lets through. -/
structure OnlyShrinks (first last : Policy) : Prop where
  tightening : isTightening first.raw last.raw = .ok true
  spending : ∀ asset amount sum, spendAllowed last asset amount sum = .ok .ok →
    spendAllowed first asset amount sum = .ok .ok
  feeCaps : ∀ k ∈ feeCapNames, last.cap k ≤ first.cap k
  feeCeilings : ∀ n c c', feeCeiling n last = .ok c → feeCeiling n first = .ok c' → c ≤ c'
  networks : ∀ n, last.includesNetwork n = true → first.includesNetwork n = true
  limits : ∀ asset, (last.limit asset).truthy = true →
    (first.limit asset).truthy = true ∧ BoundsLe (last.limit asset) (first.limit asset)
  whitelistDelay : first.whitelistCooldownSec ≤ last.whitelistCooldownSec

/-- No fee cap of the last policy is above that of the first, neither as a
number nor as JavaScript compares the two values. -/
def KeepsFeeCaps (first last : Policy) : Prop :=
  ∀ k ∈ feeCapNames, last.cap k ≤ first.cap k ∧ (first.feeCap k).lt (last.feeCap k) = .ok false

/-- Both fee caps are numbers, as the type of a policy says. -/
def Policy.NumberCaps (p : Policy) : Prop :=
  ∀ k ∈ feeCapNames, (p.feeCap k).comparesAsText = false

theorem TightenedTo.besidesFees {first last : Policy} (h : TightenedTo first last) :
    TighterBesidesFees first last := by
  induction h with
  | refl => exact .refl first
  | tail _ hstep ih => exact ih.trans (isTightening_eq_true.1 hstep).1

/-- Where the later policies have numbers for caps, the caps are kept. -/
theorem keepsFeeCaps_of_numbers {first last : Policy}
    (h : Relation.ReflTransGen (fun prev next => isTightening prev.raw next.raw = .ok true ∧
      next.NumberCaps) first last) : KeepsFeeCaps first last := by
  induction h with
  | refl => exact fun k hk => ⟨le_rfl, lt_self first hk⟩
  | @tail mid next _ hstep ih =>
    obtain ⟨htight, hnumbers⟩ := hstep
    intro k hk
    have hmore := (feeCapMore_eq_false hk).mp ((isTightening_eq_true.1 htight).2 k hk)
    rw [lt_of_number hk (by rw [hnumbers k hk, Bool.and_false])] at hmore
    have hle : next.cap k ≤ first.cap k :=
      (not_lt.mp (of_decide_eq_false (Except.ok.inj hmore))).trans (ih k hk).1
    refine ⟨hle, ?_⟩
    rw [lt_of_number hk (by rw [hnumbers k hk, Bool.and_false])]
    exact congrArg Except.ok (decide_eq_false (not_lt.mpr hle))

/-- A chain of policies only shrinks what can be spent exactly when it keeps
the fee caps; with numbers for caps it does. -/
theorem tightening_only_shrinks_iff (first last : Policy) :
    (TightenedTo first last → (OnlyShrinks first last ↔ KeepsFeeCaps first last)) ∧
    (Relation.ReflTransGen (fun prev next =>
      isTightening prev.raw next.raw = .ok true ∧ next.NumberCaps) first last →
      KeepsFeeCaps first last) := by
  refine ⟨?_, keepsFeeCaps_of_numbers⟩
  intro h
  have hrest := h.besidesFees
  constructor
  · intro hs k hk
    have hmore := (isTightening_eq_true.1 hs.tightening).2 k hk
    exact ⟨hs.feeCaps k hk, (feeCapMore_eq_false hk).mp hmore⟩
  · intro hcaps
    refine ⟨isTightening_eq_true.2 ⟨hrest, ?_⟩, ?_, fun k hk => (hcaps k hk).1, ?_,
      hrest.networks, fun asset => hrest.limit, hrest.whitelistCooldownSec⟩
    · intro k hk
      exact (feeCapMore_eq_false hk).mpr (hcaps k hk).2
    · intro asset amount sum hq
      obtain ⟨htruthy, hle⟩ := hrest.limit (spendAllowed_ok.1 hq).1
      exact hle.spend htruthy hq
    · intro n c c' hl hf
      exact feeCeiling_mono (fun k hk => (hcaps k hk).1) hl hf

/-- A policy in a mode and with a cap for Bitcoin. -/
def cappedRaw (mode : String) (cap : Value) : Value := canon (.obj (named [
  ("version", .int 2), ("prev", .null), ("mode", .text mode), ("soloMinKeys", .int 2),
  ("soloDelaySec", .int 1800), ("whitelistCooldownSec", .int 86400),
  ("approvalWindowSec", .int 3600), ("limits", defaultLimits),
  ("feeCaps", .obj (named [("btcSatPerVb", cap), ("ethMaxFeeGwei", .int 50)])),
  ("networks", .arr [.text "bitcoin_signet"]), ("liveFunds", .bool false)]))

def cappedBy50 : Policy := ⟨cappedRaw "solo" (.int 50), by decide +kernel, by decide +kernel⟩

def cappedBy40 : Policy := ⟨cappedRaw "solo" (.int 40), by decide +kernel, by decide +kernel⟩

def cappedByText5 : Policy := ⟨cappedRaw "solo" (.text "5"), by decide +kernel, by decide +kernel⟩

def cappedByText1000 : Policy := ⟨cappedRaw "solo" (.text "1000"), by decide +kernel, by decide +kernel⟩

/-- A cap of 50 is tightened to the text "5", and that to the text "1000". -/
theorem text_caps_loosen : TightenedTo cappedBy50 cappedByText1000 ∧
    ¬ OnlyShrinks cappedBy50 cappedByText1000 ∧
    feeCeiling .bitcoinSignet cappedBy50 = .ok 173650 ∧
    feeCeiling .bitcoinSignet cappedByText1000 = .ok 3473000 := by
  have h1 : isTightening cappedBy50.raw cappedByText5.raw = .ok true := by decide +kernel
  have h2 : isTightening cappedByText5.raw cappedByText1000.raw = .ok true := by decide +kernel
  have hbefore : feeCeiling .bitcoinSignet cappedBy50 = .ok 173650 := by decide +kernel
  have hafter : feeCeiling .bitcoinSignet cappedByText1000 = .ok 3473000 := by decide +kernel
  refine ⟨.tail (.single h1) h2, ?_, hbefore, hafter⟩
  intro h
  have hle := h.feeCeilings _ _ _ hafter hbefore
  exact absurd hle (by decide)

/-- From a cap of 50 to one of 40, the spending only shrinks. -/
theorem lower_cap_only_shrinks : OnlyShrinks cappedBy50 cappedBy40 := by
  have h : isTightening cappedBy50.raw cappedBy40.raw = .ok true := by decide +kernel
  have hnumbers : cappedBy40.NumberCaps := by
    intro k hk
    simp only [feeCapNames, List.mem_cons, List.not_mem_nil, or_false] at hk
    rcases hk with rfl | rfl
    · decide +kernel
    · decide +kernel
  exact ((tightening_only_shrinks_iff _ _).1 (.single h)).mpr
    ((tightening_only_shrinks_iff _ _).2 (.single ⟨h, hnumbers⟩))

end Klick
