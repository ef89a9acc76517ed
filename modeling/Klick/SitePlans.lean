-- The plan of a site tunnel (`lib/site-tunnels/rules.ts`): the networks that a customer names,
-- the network they are handed over in, and that the agent takes what was planned.
import Klick.NetRanges
import Klick.SiteTunnels

open Js

namespace Klick.SiteTunnels

open Net

/-! ## The networks of a customer -/

inductive ReservedNet
  | admin
  | nodes
  | transfer
  | service
deriving DecidableEq

/-- `RESERVED_NETS` -/
def reserved : List (String × ReservedNet) :=
  [("10.8.0.0/24", .nodes), ("10.9.0.0/24", .admin), ("10.20.0.0/16", .transfer),
    ("10.21.0.0/24", .service)]

inductive NetError
  | netInvalid
  | netNotPrivate
  | netTooLarge
  | netDuplicate
  | netCount
deriving DecidableEq

/-- With whom a network overlaps: a network of the program, or another site. -/
inductive ConflictWith
  | reserved (kind : ReservedNet)
  | site
deriving DecidableEq

structure NetConflict where
  net : Text
  with_ : ConflictWith
  other : Text
deriving DecidableEq

inductive NetCheck
  | refused (error : NetError) (net : Option Text)
  | accepted (nets : List Text) (conflicts : List NetConflict)
deriving DecidableEq

/-- The first loop of `checkCustomerNets`: the networks that are read, after those before. -/
def readNets (ranges : List IpRange) : List Text → Except (NetError × Text) (List IpRange)
  | [] => .ok ranges
  | raw :: list =>
    match parseCidr raw with
    | none => .error (.netInvalid, raw)
    | some r =>
      if r.family ≠ .v4 || !raw.contains (ch '/') then .error (.netInvalid, raw)
      else if !privateV4.any (rangeWithin r) then .error (.netNotPrivate, r.text)
      else if r.prefixLength < minNetPrefix then .error (.netTooLarge, r.text)
      else if ranges.any (rangesOverlap · r) then .error (.netDuplicate, r.text)
      else readNets (ranges ++ [r]) list

/-- The second loop of `checkCustomerNets`: what a network overlaps with. -/
def conflictsOf (taken : List Text) (r : IpRange) : List NetConflict :=
  (reserved.filterMap fun res =>
    (parseCidr (js res.1)).bind fun o =>
      if rangesOverlap r o then some ⟨r.text, .reserved res.2, js res.1⟩ else none) ++
  taken.filterMap fun t =>
    (parseCidr t).bind fun o =>
      if rangesOverlap r o then some ⟨r.text, .site, o.text⟩ else none

def checkCustomerNets (input taken : List Text) : NetCheck :=
  let list := (input.map trim).filter (· ≠ [])
  if list.length = 0 || maxSiteNets < list.length then .refused .netCount none
  else
    match readNets [] list with
    | .error (error, net) => .refused error (some net)
    | .ok ranges => .accepted (ranges.map (·.text)) (ranges.flatMap (conflictsOf taken))

/-! ## The network to hand over in -/

/-- The network of the pool with a number, as long as the customer's prefix. -/
def candidate (n prefixLength : ℕ) : Text :=
  js "10.20." ++ decimal n ++ js ".0/" ++ decimal prefixLength

/-- The first number whose network is free. A text that is no network has no address to
compare, and the comparison throws. -/
def firstFree (own : IpRange) (used : List IpRange) : List ℕ → Except Exn (Option Text)
  | [] => .ok none
  | n :: ns =>
    match parseCidr (candidate n own.prefixLength) with
    | none => .error .typeError
    | some c =>
      if rangesOverlap c own || used.any (rangesOverlap · c) then firstFree own used ns
      else .ok (some c.text)

def transferFor (nets taken : List Text) : Except Exn (Option Text) :=
  match nets with
  | [n] =>
    match parseCidr n with
    | none => .ok none
    | some own =>
      if own.prefixLength < 24 then .ok none
      else firstFree own (taken.filterMap parseCidr) (List.range' 1 254)
  | _ => .ok none

/-! ## What is planned, the agent takes -/

/-- The networks of the program that the agent refuses are those that are reserved, but for the
pool. -/
theorem mem_reservedNets {o : IpRange} (h : o ∈ reservedNets) :
    ∃ res ∈ reserved, res.2 ≠ .transfer ∧ parseCidr (js res.1) = some o := by
  unfold reservedNets cidrs at h
  obtain ⟨s, hs, ho⟩ := List.mem_filterMap.mp h
  simp only [List.mem_cons, List.not_mem_nil, or_false] at hs
  rcases hs with rfl | rfl | rfl
  · exact ⟨("10.8.0.0/24", .nodes), by simp [reserved], by simp, ho⟩
  · exact ⟨("10.9.0.0/24", .admin), by simp [reserved], by simp, ho⟩
  · exact ⟨("10.21.0.0/24", .service), by simp [reserved], by simp, ho⟩

/-- A network without conflicts overlaps with none of the reserved ones. -/
theorem apart_of_conflictsOf {taken : List Text} {r : IpRange} (h : conflictsOf taken r = []) :
    reservedNets.any (rangesOverlap r) = false := by
  rw [List.any_eq_false]
  intro o ho hover
  obtain ⟨res, hres, -, hread⟩ := mem_reservedNets ho
  have hmem : (⟨r.text, .reserved res.2, js res.1⟩ : NetConflict) ∈ conflictsOf taken r := by
    apply List.mem_append_left
    rw [List.mem_filterMap]
    refine ⟨res, hres, ?_⟩
    rw [hread, Option.bind_some, if_pos hover]
  rw [h] at hmem
  cases hmem

/-- **The networks that were read are those that the agent reads and takes**, when they keep off
the reserved ones. -/
theorem readNets_spec {ranges all : List IpRange} {list : List Text}
    (h : readNets ranges list = .ok all) :
    ∃ new, all = ranges ++ new ∧ new.length = list.length ∧
      (∀ r ∈ new, r.Aligned ∧ r.family = .v4) ∧
      ((∀ r ∈ new, reservedNets.any (rangesOverlap r) = false) →
        allowedFrom ranges (new.map (·.text)) = true) := by
  induction list generalizing ranges with
  | nil =>
    cases h
    exact ⟨[], by simp, rfl, by simp, fun _ => rfl⟩
  | cons raw list ih =>
    unfold readNets at h
    cases hraw : parseCidr raw with
    | none =>
      rw [hraw] at h
      cases h
    | some r =>
      rw [hraw] at h
      dsimp only at h
      split_ifs at h with hfamily hprivate hlarge hdouble
      obtain ⟨new, rfl, hlen, hnew, hallowed⟩ := ih h
      have haligned := aligned_of_parseCidr hraw
      have hv4 : r.family = .v4 := by
        by_contra hne
        simp [hne] at hfamily
      refine ⟨r :: new, by simp, by rw [List.length_cons, List.length_cons, hlen], ?_, ?_⟩
      · rw [List.forall_mem_cons]
        exact ⟨⟨haligned, hv4⟩, hnew⟩
      · intro happart
        rw [List.forall_mem_cons] at happart
        rw [List.map_cons]
        unfold allowedFrom
        rw [parseCidr_text haligned hv4]
        simp only [Bool.not_eq_true', Bool.not_eq_false, Bool.not_eq_true] at hprivate hdouble
        have hlong : minNetPrefix ≤ r.prefixLength := by omega
        simp [hv4, hprivate, hlong, happart.1, hdouble, hallowed happart.2]

/-- What `checkCustomerNets` accepts, it has read. -/
theorem checkCustomerNets_accepted {input taken nets : List Text} {conflicts : List NetConflict}
    (h : checkCustomerNets input taken = .accepted nets conflicts) :
    ∃ ranges list, readNets [] list = .ok ranges ∧ list ≠ [] ∧ list.length ≤ maxSiteNets ∧
      nets = ranges.map (·.text) ∧ conflicts = ranges.flatMap (conflictsOf taken) := by
  unfold checkCustomerNets at h
  dsimp only at h
  split_ifs at h with hcount
  rw [Bool.or_eq_true, decide_eq_true_eq, decide_eq_true_eq] at hcount
  split at h
  · cases h
  · rename_i ranges hread
    cases h
    refine ⟨ranges, _, hread, fun hnil => hcount (.inl ?_), by omega, rfl, rfl⟩
    rw [hnil]
    rfl

/-- The networks that are accepted are IPv4 networks, each in its own text. -/
theorem nets_of_accepted {input taken nets : List Text} {conflicts : List NetConflict}
    (h : checkCustomerNets input taken = .accepted nets conflicts) :
    ∀ n ∈ nets, ∃ r, parseCidr n = some r ∧ r.family = .v4 ∧ r.text = n := by
  obtain ⟨ranges, list, hread, -, -, rfl, -⟩ := checkCustomerNets_accepted h
  obtain ⟨new, rfl, -, hnew, -⟩ := readNets_spec hread
  intro n hn
  obtain ⟨r, hr, rfl⟩ := List.mem_map.mp hn
  obtain ⟨haligned, hv4⟩ := hnew r hr
  exact ⟨r, parseCidr_text haligned hv4, hv4, rfl⟩

/-- **The agent takes the networks that are accepted without conflicts.** -/
theorem agent_takes_accepted {input taken nets : List Text}
    (h : checkCustomerNets input taken = .accepted nets []) : agentNetsAllowed nets = true := by
  obtain ⟨ranges, list, hread, hne, hlen, rfl, hconflicts⟩ := checkCustomerNets_accepted h
  obtain ⟨new, rfl, hcount, -, hallowed⟩ := readNets_spec hread
  have happart : ∀ r ∈ ranges, reservedNets.any (rangesOverlap r) = false := fun r hr =>
    apart_of_conflictsOf (List.flatMap_eq_nil_iff.mp hconflicts.symm r hr)
  have hnonempty : ranges ≠ [] := by
    intro hnil
    rw [hnil] at hcount
    exact hne (List.length_eq_zero_iff.mp hcount.symm)
  unfold agentNetsAllowed
  simp [hnonempty, hcount, hlen, hallowed happart]

/-! ## The network to hand over in -/

/-- The first address of `10.20.n.0`. -/
def poolBase (n : ℕ) : ℕ := (10 * 256 + 20) * 65536 + n * 256

theorem formatIp_poolBase {n : ℕ} (hn : n < 256) :
    formatIp ⟨.v4, poolBase n⟩ = js "10.20." ++ decimal n ++ js ".0" := by
  have h24 : poolBase n / 2 ^ 24 % 256 = 10 := by unfold poolBase; omega
  have h16 : poolBase n / 2 ^ 16 % 256 = 20 := by unfold poolBase; omega
  have h8 : poolBase n / 2 ^ 8 % 256 = n := by unfold poolBase; omega
  have h0 : poolBase n / 2 ^ 0 % 256 = 0 := by unfold poolBase; omega
  have hfront : js "10.20." = decimal 10 ++ ch '.' :: (decimal 20 ++ [ch '.']) := by decide
  have hback : js ".0" = ch '.' :: decimal 0 := by decide
  unfold formatIp
  simp only [List.map_cons, List.map_nil, h24, h16, h8, h0, hfront, hback, join_cons_cons,
    join_singleton]
  simp

/-- A candidate is a network of the pool, when an IPv4 address has a prefix of that length. -/
theorem parseCidr_candidate {n p : ℕ} (hn : n < 256) :
    parseCidr (candidate n p) =
      (parsePrefix .v4 false (decimal p)).map (rangeOf ⟨.v4, poolBase n⟩) := by
  have hsmall : poolBase n < 2 ^ 32 := by unfold poolBase; omega
  have hread := parseV4_formatIp hsmall
  have htext : candidate n p = formatIp ⟨.v4, poolBase n⟩ ++ ch '/' :: decimal p := by
    rw [formatIp_poolBase hn]
    have hslash : js ".0/" = js ".0" ++ [ch '/'] := by decide
    unfold candidate
    rw [hslash]
    simp
  have hslash : ch '/' ∉ formatIp ⟨.v4, poolBase n⟩ := not_mem_dotted hread (by decide) (by decide)
  have hcolon : (formatIp ⟨.v4, poolBase n⟩).contains (ch ':') = false := by
    simpa using not_mem_dotted hread (u := ch ':') (by decide) (by decide)
  have htrim : trim (formatIp ⟨.v4, poolBase n⟩ ++ ch '/' :: decimal p) =
      formatIp ⟨.v4, poolBase n⟩ ++ ch '/' :: decimal p := by
    apply trim_eq_self
    intro u hu
    rw [List.mem_append, List.mem_cons] at hu
    rcases hu with hu | rfl | hu
    · rcases dotted_signs hread hu with rfl | hu
      · decide
      · exact isTrimmed_digit hu
    · decide
    · exact isTrimmed_digit (decimal_digits p u hu)
  rw [htext, parseCidr_slash htrim hslash, parseIp_dotted hread]
  simp only [Option.bind_some, hcolon, Bool.and_false]

/-- The network of the pool with a number. -/
def poolNet (n p : ℕ) : IpRange := rangeOf ⟨.v4, poolBase n⟩ p

@[simp] theorem poolNet_family (n p : ℕ) : (poolNet n p).family = .v4 := rfl

@[simp] theorem poolNet_prefixLength (n p : ℕ) : (poolNet n p).prefixLength = p := rfl

theorem candidate_some {n p : ℕ} (hn : n < 256) (hp : p ≤ 32) :
    parseCidr (candidate n p) = some (poolNet n p) := by
  rw [parseCidr_candidate hn, parsePrefix_decimal hp]
  rfl

theorem candidate_none {n p : ℕ} (hn : n < 256) (hp : 32 < p) : parseCidr (candidate n p) = none := by
  rw [parseCidr_candidate hn]
  have hbits : ¬ p ≤ Family.v4.bits := by simpa [Family.bits] using hp
  unfold parsePrefix
  simp [natOf_decimal, hbits]

theorem poolNet_aligned {n p : ℕ} (hn : n < 256) (hp : p ≤ 32) : (poolNet n p).Aligned := by
  apply aligned_rangeOf
  · change poolBase n < 2 ^ 32
    unfold poolBase
    omega
  · exact hp

/-- A prefix of at least 24 leaves the base as it is. -/
theorem poolNet_base {n p : ℕ} (hlong : 24 ≤ p) : (poolNet n p).base = poolBase n := by
  have hdvd : 2 ^ (32 - p) ∣ 256 := by
    rw [show 256 = 2 ^ 8 by norm_num]
    exact pow_dvd_pow 2 (by omega)
  have hbase : 2 ^ (32 - p) ∣ poolBase n := by
    unfold poolBase
    apply Nat.dvd_add
    · exact Dvd.dvd.mul_left (hdvd.trans (by norm_num)) _
    · exact Dvd.dvd.mul_left hdvd _
  change poolBase n / 2 ^ (32 - p) * 2 ^ (32 - p) = poolBase n
  exact Nat.div_mul_cancel hbase

/-- The pool of the program (`SITE_TRANSFER_POOL`). -/
def pool : IpRange := poolNet 0 16

theorem parseCidr_pool : parseCidr (js "10.20.0.0/16") = some pool := by decide

theorem poolNet_within {n p : ℕ} (hn : n < 256) (hlong : 24 ≤ p) :
    rangeWithin (poolNet n p) pool = true := by
  have hpool : pool.base = poolBase 0 := by
    change poolBase 0 / 2 ^ 16 * 2 ^ 16 = poolBase 0
    norm_num [poolBase]
  have hlength : pool.prefixLength = 16 := poolNet_prefixLength 0 16
  have hfamily : pool.family = .v4 := poolNet_family 0 16
  have hmin : min p 16 = 16 := by omega
  unfold rangeWithin
  rw [Bool.and_eq_true, decide_eq_true_eq, rangesOverlap_iff_div, poolNet_base hlong, hpool, hlength,
    hfamily, poolNet_family, poolNet_prefixLength, hmin]
  refine ⟨by omega, rfl, ?_⟩
  norm_num [Family.bits, poolBase]
  omega

/-- A network of the pool overlaps with no network outside, whose prefix is as long as that of the
pool or longer. -/
theorem poolNet_apart {n p : ℕ} (hn : n < 256) (hlong : 24 ≤ p) {o : IpRange} {second rest : ℕ}
    (ho : o.base = (10 * 256 + second) * 65536 + rest) (hrest : rest < 65536)
    (hsecond : second ≠ 20) (hlength : 16 ≤ o.prefixLength) :
    rangesOverlap (poolNet n p) o = false := by
  by_contra hover
  rw [Bool.not_eq_false, rangesOverlap_iff_div, poolNet_base hlong, ho] at hover
  have hdiv := hover.2
  rw [poolNet_family, poolNet_prefixLength] at hdiv
  have hshort : Family.v4.bits - min p o.prefixLength ≤ 16 := by
    change 32 - min p o.prefixLength ≤ 16
    omega
  generalize Family.v4.bits - min p o.prefixLength = m at hdiv hshort
  -- the second part of the address is left when more is cut off
  have hcut : ∀ v, v / 2 ^ m / 2 ^ (16 - m) = v / 65536 := by
    intro v
    rw [Nat.div_div_eq_div_mul, ← pow_add, Nat.add_sub_cancel' hshort]
    norm_num
  have hparts := hcut (poolBase n)
  rw [hdiv, hcut] at hparts
  unfold poolBase at hparts
  omega

theorem poolNet_allowed {n p : ℕ} (hn : n < 256) (hlong : 24 ≤ p) (hp : p ≤ 32) :
    agentNetsAllowed [(poolNet n p).text] = true := by
  have hread := parseCidr_text (poolNet_aligned hn hp) rfl
  have hprivate : privateV4.any (rangeWithin (poolNet n p)) = true := by
    rw [List.any_eq_true]
    refine ⟨⟨.v4, 10 * 2 ^ 24, 8, js "10.0.0.0/8"⟩, by decide, ?_⟩
    unfold rangeWithin
    have hmin : min p 8 = 8 := by omega
    rw [Bool.and_eq_true, decide_eq_true_eq, rangesOverlap_iff_div, poolNet_base hlong,
      poolNet_family, poolNet_prefixLength, hmin]
    refine ⟨by change 8 ≤ p; omega, rfl, ?_⟩
    norm_num [Family.bits, poolBase]
    omega
  have hreserved : reservedNets.any (rangesOverlap (poolNet n p)) = false := by
    have hnets : reservedNets =
        [⟨.v4, (10 * 256 + 8) * 65536 + 0, 24, js "10.8.0.0/24"⟩,
          ⟨.v4, (10 * 256 + 9) * 65536 + 0, 24, js "10.9.0.0/24"⟩,
          ⟨.v4, (10 * 256 + 21) * 65536 + 0, 24, js "10.21.0.0/24"⟩] := by decide
    rw [hnets]
    simp only [List.any_cons, List.any_nil, Bool.or_false, Bool.or_eq_false_iff]
    refine ⟨?_, ?_, ?_⟩
    · exact poolNet_apart hn hlong rfl (by norm_num) (by norm_num) (by norm_num)
    · exact poolNet_apart hn hlong rfl (by norm_num) (by norm_num) (by norm_num)
    · exact poolNet_apart hn hlong rfl (by norm_num) (by norm_num) (by norm_num)
  have hlength : minNetPrefix ≤ p := by
    change 16 ≤ p
    omega
  have hcount : 1 ≤ maxSiteNets := by decide
  unfold agentNetsAllowed allowedFrom
  rw [hread]
  simp [allowedFrom, hprivate, hlength, hreserved, hcount]

/-! ## The first free network -/

/-- A network that cannot be handed over in: it overlaps with the customer's own or with one that
is taken. -/
def Occupied (own : IpRange) (used : List IpRange) (c : IpRange) : Prop :=
  rangesOverlap c own = true ∨ ∃ u ∈ used, rangesOverlap u c = true

theorem occupied_iff {own c : IpRange} {used : List IpRange} :
    (rangesOverlap c own || used.any (rangesOverlap · c)) = true ↔ Occupied own used c := by
  rw [Bool.or_eq_true, List.any_eq_true]
  rfl

/-- **The first number whose network is not occupied**, or none when all of them are. -/
theorem firstFree_spec {own : IpRange} {used : List IpRange} {ns : List ℕ}
    (hns : ∀ n ∈ ns, n < 256) {r : Option Text} (h : firstFree own used ns = .ok r) :
    (∀ t, r = some t → ∃ n ∈ ns, own.prefixLength ≤ 32 ∧ t = (poolNet n own.prefixLength).text ∧
        ¬ Occupied own used (poolNet n own.prefixLength)) ∧
      (r = none → ∀ n ∈ ns, own.prefixLength ≤ 32 ∧
        Occupied own used (poolNet n own.prefixLength)) := by
  induction ns with
  | nil =>
    cases h
    simp
  | cons n ns ih =>
    rw [List.forall_mem_cons] at hns
    unfold firstFree at h
    by_cases hp : own.prefixLength ≤ 32
    · rw [candidate_some hns.1 hp] at h
      dsimp only at h
      by_cases hocc : Occupied own used (poolNet n own.prefixLength)
      · rw [if_pos (occupied_iff.mpr hocc)] at h
        obtain ⟨hsome, hnone⟩ := ih hns.2 h
        constructor
        · intro t ht
          obtain ⟨m, hm, hfree⟩ := hsome t ht
          exact ⟨m, List.mem_cons_of_mem _ hm, hfree⟩
        · intro hr
          rw [List.forall_mem_cons]
          exact ⟨⟨hp, hocc⟩, hnone hr⟩
      · rw [if_neg fun hbool => hocc (occupied_iff.mp hbool)] at h
        cases h
        constructor
        · intro t ht
          cases ht
          exact ⟨n, List.mem_cons_self, hp, rfl, hocc⟩
        · intro hr
          cases hr
    · rw [candidate_none hns.1 (by omega)] at h
      cases h

/-- Nothing throws when the prefix is one of an IPv4 address. -/
theorem firstFree_answers {own : IpRange} (used : List IpRange) (hp : own.prefixLength ≤ 32)
    {ns : List ℕ} (hns : ∀ n ∈ ns, n < 256) : ∃ r, firstFree own used ns = .ok r := by
  induction ns with
  | nil => exact ⟨none, rfl⟩
  | cons n ns ih =>
    rw [List.forall_mem_cons] at hns
    unfold firstFree
    rw [candidate_some hns.1 hp]
    dsimp only
    split_ifs
    · exact ih hns.2
    · exact ⟨_, rfl⟩

end Klick.SiteTunnels
