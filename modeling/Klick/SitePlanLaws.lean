-- The laws of the plan of a site tunnel: the agent takes what was planned, the network to hand
-- over in is free and as large as the customer's, and the other side of the tunnel is a public
-- IPv4 address in its one spelling.
import Klick.SitePlans

open Js

namespace Klick.SiteTunnels

open Net

/-! ## The other side -/

/-- The input names an IPv4 address outside the special-purpose ranges, and this is its text. -/
def PublicAddress (input ip : Text) : Prop :=
  ∃ v, parseIp (trim input) = some ⟨.v4, v⟩ ∧ (∀ r ∈ nonPublicV4, ipInRange ⟨.v4, v⟩ r = false) ∧
    ip = formatIp ⟨.v4, v⟩

/-- An IPv4 address that is spelled as an IPv6 address. -/
def MappedSpelling (input : Text) : Prop :=
  (∃ v, parseIp (trim input) = some ⟨.v4, v⟩) ∧ ch ':' ∈ input

/-- The check answers, it accepts exactly the public addresses, and what it gives is accepted and
given again. -/
structure PeerRight (input : Text) : Prop where
  answers : ∃ r, checkPeerIp input = .ok r ∧ ∀ ip, r = some ip ↔ PublicAddress input ip
  idempotent : ∀ ip, checkPeerIp input = .ok (some ip) → checkPeerIp ip = .ok (some ip)

/-- Signs behind a trimmed text are trimmed as little as it is. -/
theorem trim_trim_append {t : Text} (ht : trim t ≠ []) {w : Text} (hw : ∀ u ∈ w, isTrimmed u = false) :
    trim (trim t ++ w) = trim t ++ w := by
  have hfront : (trim t ++ w).dropWhile isTrimmed = trim t ++ w := by
    have hhead : ∀ a s, trim t = a :: s → isTrimmed a = false := by
      intro a s has
      have hpre : trim t <+: t.dropWhile isTrimmed := List.rdropWhile_prefix _ _
      rw [has] at hpre
      obtain ⟨z, hz⟩ := hpre
      have hdrop := List.dropWhile_idempotent isTrimmed t
      rw [← hz] at hdrop
      by_contra hblank
      rw [Bool.not_eq_false] at hblank
      rw [List.cons_append, List.dropWhile_cons_of_pos hblank] at hdrop
      have hlen := congrArg List.length hdrop
      have hle := (List.dropWhile_sublist (l := s ++ z) isTrimmed).length_le
      rw [List.length_cons] at hlen
      omega
    cases hs : trim t with
    | nil => exact absurd hs ht
    | cons a s => exact List.dropWhile_cons_of_neg (by simp [hhead a s hs])
  have hback : (trim t ++ w).reverse.dropWhile isTrimmed = (trim t ++ w).reverse := by
    rw [List.reverse_append]
    cases hw' : w.reverse with
    | nil =>
      rw [List.nil_append]
      unfold trim
      rw [List.reverse_reverse]
      exact List.dropWhile_idempotent isTrimmed _
    | cons a s =>
      have ha : a ∈ w := List.mem_reverse.mp (hw' ▸ List.mem_cons_self)
      rw [List.cons_append]
      exact List.dropWhile_cons_of_neg (by simp [hw a ha])
  unfold trim at hfront hback ⊢
  rw [hfront, hback, List.reverse_reverse]

/-- A single address as a network: `/32` behind a spelling in IPv6 is no prefix. -/
theorem parseCidr_single {input : Text} {v : ℕ} (h : parseIp (trim input) = some ⟨.v4, v⟩) :
    parseCidr (trim input ++ js "/32") =
      if ch ':' ∈ input then none else some (rangeOf ⟨.v4, v⟩ 32) := by
  have hne : trim input ≠ [] := by
    intro hnil
    have hnone : parseIp [] = none := by decide
    rw [hnil, hnone] at h
    cases h
  have hsplit : js "/32" = ch '/' :: js "32" := by decide
  have hvisible : ∀ u ∈ js "/32", isTrimmed u = false := by
    rw [hsplit, List.forall_mem_cons]
    refine ⟨by decide, ?_⟩
    have hdigits : (js "32").all isDigit = true := by decide
    exact fun u hu => isTrimmed_digit (List.all_eq_true.mp hdigits u hu)
  have htrim : trim (trim input ++ js "/32") = trim input ++ js "/32" :=
    trim_trim_append hne hvisible
  rw [hsplit] at htrim ⊢
  rw [parseCidr_slash htrim (slash_not_mem h), h, Option.bind_some]
  by_cases hcolon : ch ':' ∈ input
  · have hmem : (trim input).contains (ch ':') = true := by
      simpa using (mem_trim (by decide)).mpr hcolon
    rw [if_pos hcolon, hmem]
    have hlength : parsePrefix .v4 true (js "32") = none := by decide
    simp [hlength]
  · have hmem : (trim input).contains (ch ':') = false := by
      rw [Bool.eq_false_iff]
      intro hc
      exact hcolon ((mem_trim (by decide)).mp (by simpa using hc))
    rw [if_neg hcolon, hmem]
    have hlength : parsePrefix .v4 false (js "32") = some 32 := by decide
    simp [hlength]

theorem nonPublicV4_aligned : ∀ r ∈ nonPublicV4, r.Aligned := by
  intro r hr
  obtain ⟨s, -, hread⟩ := List.mem_filterMap.mp hr
  exact aligned_of_parseCidr hread

/-- **What the check does with an IPv4 address.** -/
theorem checkPeerIp_v4 {input : Text} {v : ℕ} (h : parseIp (trim input) = some ⟨.v4, v⟩) :
    checkPeerIp input =
      if ch ':' ∈ input then .error (.js .typeError)
      else if nonPublicV4.any (ipInRange ⟨.v4, v⟩) then .ok none
      else .ok (some (formatIp ⟨.v4, v⟩)) := by
  have hslash : input.contains (ch '/') = false := by
    rw [Bool.eq_false_iff]
    intro hc
    exact slash_not_mem h ((mem_trim (by decide)).mpr (by simpa using hc))
  have hfits := fits_of_parseIp h
  unfold checkPeerIp
  rw [h]
  simp only [ne_eq, not_true_eq_false, decide_false, hslash, Bool.or_self, Bool.false_eq_true,
    if_false]
  rw [parseCidr_single h]
  by_cases hcolon : ch ':' ∈ input
  · rw [if_pos hcolon, if_pos hcolon]
  · rw [if_neg hcolon, if_neg hcolon]
    have hwithin : nonPublicV4.any (rangeWithin (rangeOf ⟨.v4, v⟩ 32)) =
        nonPublicV4.any (ipInRange ⟨.v4, v⟩) := by
      rw [Bool.eq_iff_iff, List.any_eq_true, List.any_eq_true]
      refine exists_congr fun r => and_congr_right fun hr => ?_
      rw [← within_single hfits (nonPublicV4_aligned r hr)]
      rfl
    have hbase : (rangeOf ⟨.v4, v⟩ 32).text = formatIp ⟨.v4, v⟩ ++ js "/32" := by
      have hsplit : js "/32" = ch '/' :: decimal 32 := by decide
      rw [hsplit]
      simp [rangeOf, Family.bits]
    have htake : (formatIp ⟨.v4, v⟩ ++ js "/32").take
        ((formatIp ⟨.v4, v⟩ ++ js "/32").length - 3) = formatIp ⟨.v4, v⟩ := by
      have hlen : (js "/32").length = 3 := by decide
      rw [List.length_append, hlen, Nat.add_sub_cancel, List.take_left]
    dsimp only
    rw [hwithin, hbase, htake]

theorem checkPeerIp_other {input : Text} (h : ∀ v, parseIp (trim input) ≠ some ⟨.v4, v⟩) :
    checkPeerIp input = .ok none := by
  unfold checkPeerIp
  cases hread : parseIp (trim input) with
  | none => rfl
  | some ip =>
    have hfamily : ip.family ≠ .v4 := by
      intro hv4
      obtain ⟨family, v⟩ := ip
      dsimp only at hv4
      rw [hv4] at hread
      exact h v hread
    simp [hfamily]

/-- The text of a public address is accepted as it is. -/
theorem checkPeerIp_formatIp {v : ℕ} (hv : v < 2 ^ 32)
    (h : nonPublicV4.any (ipInRange ⟨.v4, v⟩) = false) :
    checkPeerIp (formatIp ⟨.v4, v⟩) = .ok (some (formatIp ⟨.v4, v⟩)) := by
  have hread := parseV4_formatIp hv
  have hparse : parseIp (trim (formatIp ⟨.v4, v⟩)) = some ⟨.v4, v⟩ := by
    rw [trim_dotted hread]
    exact parseIp_dotted hread
  have hcolon : ch ':' ∉ formatIp ⟨.v4, v⟩ := not_mem_dotted hread (by decide) (by decide)
  rw [checkPeerIp_v4 hparse, if_neg hcolon, h]
  rfl

/-- **The check is right but for IPv4 addresses that are spelled as IPv6 addresses**: there it
throws. -/
theorem peerRight_iff (input : Text) : PeerRight input ↔ ¬ MappedSpelling input := by
  by_cases hv4 : ∃ v, parseIp (trim input) = some ⟨.v4, v⟩
  · obtain ⟨v, hv⟩ := hv4
    have hcheck := checkPeerIp_v4 hv
    have hpublic : ∀ ip, PublicAddress input ip ↔
        nonPublicV4.any (ipInRange ⟨.v4, v⟩) = false ∧ ip = formatIp ⟨.v4, v⟩ := by
      intro ip
      unfold PublicAddress
      simp only [hv, List.any_eq_false, Bool.not_eq_true]
      constructor
      · rintro ⟨w, hw, hnets, rfl⟩
        cases hw
        exact ⟨hnets, rfl⟩
      · rintro ⟨hnets, rfl⟩
        exact ⟨v, rfl, hnets, rfl⟩
    by_cases hcolon : ch ':' ∈ input
    · rw [if_pos hcolon] at hcheck
      constructor
      · intro h
        obtain ⟨r, hr, -⟩ := h.answers
        rw [hcheck] at hr
        cases hr
      · exact fun h => absurd ⟨⟨v, hv⟩, hcolon⟩ h
    · rw [if_neg hcolon] at hcheck
      refine iff_of_true ?_ fun h => hcolon h.2
      by_cases hnets : nonPublicV4.any (ipInRange ⟨.v4, v⟩) = true
      · rw [if_pos hnets] at hcheck
        refine ⟨⟨none, hcheck, fun ip => ?_⟩, fun ip hip => ?_⟩
        · rw [hpublic, hnets]
          simp
        · rw [hcheck] at hip
          cases hip
      · rw [if_neg hnets] at hcheck
        rw [Bool.not_eq_true] at hnets
        refine ⟨⟨_, hcheck, fun ip => ?_⟩, fun ip hip => ?_⟩
        · rw [hpublic, Option.some.injEq]
          exact ⟨fun h => ⟨hnets, h.symm⟩, fun h => h.2.symm⟩
        · rw [hcheck] at hip
          cases hip
          exact checkPeerIp_formatIp (fits_of_parseIp hv) hnets
  · have hother : ∀ v, parseIp (trim input) ≠ some ⟨.v4, v⟩ := fun v hv => hv4 ⟨v, hv⟩
    have hcheck := checkPeerIp_other hother
    refine iff_of_true ⟨⟨none, hcheck, fun ip => ?_⟩, fun ip hip => ?_⟩ fun h => hv4 h.1
    · constructor
      · intro h
        cases h
      · rintro ⟨v, hv, -⟩
        exact absurd hv (hother v)
    · rw [hcheck] at hip
      cases hip

/-! ## Networks to hand over in -/

/-- No address is in both networks. -/
def Apart (a b : IpRange) : Prop :=
  ∀ ip : ParsedIp, ip.Fits → ipInRange ip a = true → ipInRange ip b = false

/-- What a network to hand over in is, for a customer's own network and those that are taken. -/
structure HandsOver (own : IpRange) (taken : List Text) (t : Text) (c : IpRange) : Prop where
  read : parseCidr t = some c
  inPool : ∀ ip, ipInRange ip c = true → ipInRange ip pool = true
  samePrefix : c.prefixLength = own.prefixLength
  sameSize : own.family = .v4 → c.size = own.size
  apartOwn : Apart c own
  apartTaken : ∀ s ∈ taken, ∀ u, parseCidr s = some u → Apart c u
  allowed : agentNetsAllowed [t] = true

theorem apart_of_overlap {a b : IpRange} (ha : a.Aligned) (hb : b.Aligned)
    (h : rangesOverlap a b = false) : Apart a b := by
  intro ip hip hina
  by_contra hinb
  rw [Bool.not_eq_false] at hinb
  rw [(rangesOverlap_iff ha hb).mpr ⟨ip, hip, hina, hinb⟩] at h
  cases h

theorem numbers_small : ∀ n ∈ List.range' 1 254, n < 256 := by
  intro n hn
  rw [List.mem_range'_1] at hn
  omega

theorem handsOver_of_free {own : IpRange} {taken : List Text} {n : ℕ} (hown : own.Aligned)
    (hn : n < 256) (hlong : 24 ≤ own.prefixLength) (hp : own.prefixLength ≤ 32)
    (hfree : ¬ Occupied own (taken.filterMap parseCidr) (poolNet n own.prefixLength)) :
    HandsOver own taken (poolNet n own.prefixLength).text (poolNet n own.prefixLength) where
  read := parseCidr_text (poolNet_aligned hn hp) rfl
  inPool ip hin := ipInRange_of_within (aligned_of_parseCidr parseCidr_pool) (poolNet_within hn hlong) hin
  samePrefix := rfl
  sameSize hv4 := by
    unfold IpRange.size
    rw [poolNet_family, poolNet_prefixLength, hv4]
  apartOwn := by
    apply apart_of_overlap (poolNet_aligned hn hp) hown
    by_contra hover
    rw [Bool.not_eq_false] at hover
    exact hfree (.inl hover)
  apartTaken s hs u hu := by
    apply apart_of_overlap (poolNet_aligned hn hp) (aligned_of_parseCidr hu)
    by_contra hover
    rw [Bool.not_eq_false, rangesOverlap_comm] at hover
    exact hfree (.inr ⟨u, List.mem_filterMap.mpr ⟨s, hs, hu⟩, hover⟩)
  allowed := poolNet_allowed hn hlong hp

/-- One network that can be read, of at most the size of a `/24`. -/
theorem transferFor_one {n : Text} {own : IpRange} (hown : parseCidr n = some own)
    (hlong : 24 ≤ own.prefixLength) (taken : List Text) :
    transferFor [n] taken = firstFree own (taken.filterMap parseCidr) (List.range' 1 254) := by
  have hshort : ¬ own.prefixLength < 24 := by omega
  simp [transferFor, hown, hshort]

/-- **A network to hand over in is one.** -/
theorem transferFor_some {nets taken : List Text} {t : Text}
    (h : transferFor nets taken = .ok (some t)) :
    ∃ n own c, nets = [n] ∧ parseCidr n = some own ∧ HandsOver own taken t c := by
  unfold transferFor at h
  split at h
  · rename_i n
    cases hown : parseCidr n with
    | none =>
      rw [hown] at h
      cases h
    | some own =>
      rw [hown] at h
      dsimp only at h
      split_ifs at h with hshort
      · cases h
      obtain ⟨k, hk, hp, rfl, hfree⟩ := (firstFree_spec numbers_small h).1 t rfl
      exact ⟨n, own, _, rfl, hown, handsOver_of_free (aligned_of_parseCidr hown)
        (numbers_small k hk) (by omega) hp hfree⟩
  · cases h

/-- **There is none only when every network of the pool is occupied.** -/
theorem transferFor_none {n : Text} {taken : List Text} {own : IpRange}
    (hown : parseCidr n = some own) (hlong : 24 ≤ own.prefixLength)
    (h : transferFor [n] taken = .ok none) {k : ℕ} (hk : 1 ≤ k ∧ k ≤ 254) :
    ∃ c, parseCidr (candidate k own.prefixLength) = some c ∧
      Occupied own (taken.filterMap parseCidr) c := by
  rw [transferFor_one hown hlong] at h
  have hmem : k ∈ List.range' 1 254 := by
    rw [List.mem_range'_1]
    omega
  obtain ⟨hp, hocc⟩ := (firstFree_spec numbers_small h).2 rfl k hmem
  exact ⟨_, candidate_some (by omega) hp, hocc⟩

/-- Of networks that were accepted, `transferFor` answers. -/
theorem transferFor_answers {input taken nets : List Text} {conflicts : List NetConflict}
    (h : checkCustomerNets input taken = .accepted nets conflicts) (others : List Text) :
    ∃ r, transferFor nets others = .ok r := by
  have hnets := nets_of_accepted h
  unfold transferFor
  split
  · rename_i n
    obtain ⟨own, hown, hv4, -⟩ := hnets n List.mem_cons_self
    have hp := (aligned_of_parseCidr hown).prefix_le
    rw [hv4] at hp
    rw [hown]
    dsimp only
    split_ifs
    · exact ⟨none, rfl⟩
    · exact firstFree_answers _ hp numbers_small
  · exact ⟨none, rfl⟩

/-! ## The plan and the agent -/

/-- **What is planned, the agent takes.** It takes the networks that are accepted without
conflicts. A network to hand over in is in the pool, as large as the customer's, shares no address
with it or with one that is taken, and the agent takes it; there is none only when every network
of the pool is occupied. Two networks overlap exactly when an address is in both. The other side
is accepted exactly when it is a public address, unless an IPv4 address is spelled as an IPv6
address. -/
theorem site_planning_agrees (peer : Text) :
    (∀ input taken nets, checkCustomerNets input taken = .accepted nets [] →
      agentNetsAllowed nets = true) ∧
    (∀ input taken nets conflicts, checkCustomerNets input taken = .accepted nets conflicts →
      (∀ n ∈ nets, ∃ own, parseCidr n = some own ∧ own.family = .v4) ∧
        ∀ others, ∃ r, transferFor nets others = .ok r) ∧
    (∀ nets taken t, transferFor nets taken = .ok (some t) →
      ∃ n own c, nets = [n] ∧ parseCidr n = some own ∧ HandsOver own taken t c) ∧
    (∀ n taken own, parseCidr n = some own → 24 ≤ own.prefixLength →
      transferFor [n] taken = .ok none → ∀ k, 1 ≤ k ∧ k ≤ 254 →
        ∃ c, parseCidr (candidate k own.prefixLength) = some c ∧
          Occupied own (taken.filterMap parseCidr) c) ∧
    (∀ s t a b, parseCidr s = some a → parseCidr t = some b →
      (rangesOverlap a b = true ↔
        ∃ ip : ParsedIp, ip.Fits ∧ ipInRange ip a = true ∧ ipInRange ip b = true)) ∧
    (PeerRight peer ↔ ¬ MappedSpelling peer) := by
  refine ⟨?_, ?_, ?_, ?_, ?_, ?_⟩
  · intro input taken nets h
    exact agent_takes_accepted h
  · intro input taken nets conflicts h
    refine ⟨fun n hn => ?_, transferFor_answers h⟩
    obtain ⟨own, hown, hv4, -⟩ := nets_of_accepted h n hn
    exact ⟨own, hown, hv4⟩
  · intro nets taken t h
    exact transferFor_some h
  · intro n taken own hown hlong h k hk
    exact transferFor_none hown hlong h hk
  · intro s t a b ha hb
    exact rangesOverlap_iff (aligned_of_parseCidr ha) (aligned_of_parseCidr hb)
  · exact peerRight_iff peer

/-- The address of a public server, spelled in IPv6. -/
theorem mapped_peer_throws :
    checkPeerIp (js "::ffff:8.8.8.8") = .error (.js .typeError) ∧
      ¬ PeerRight (js "::ffff:8.8.8.8") := by
  have hcheck : checkPeerIp (js "::ffff:8.8.8.8") = .error (.js .typeError) := by decide
  refine ⟨hcheck, fun h => ?_⟩
  obtain ⟨r, hr, -⟩ := h.answers
  rw [hcheck] at hr
  cases hr

end Klick.SiteTunnels
