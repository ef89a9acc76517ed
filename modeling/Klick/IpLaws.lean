-- Laws of the address library: an address is read from its own text, the texts
-- are those of the grammar, and a network holds what begins with its bits.
import Klick.IpGrammar

open Js Klick.QuickCheck

namespace Klick.Net

/-! ## The text of an address -/

/-- What an address is read as: an IPv6 address that is mapped is the IPv4 address. -/
def ParsedIp.canonical (ip : ParsedIp) : ParsedIp :=
  match ip.family with
  | .v4 => ip
  | .v6 => unmapped ip.value

/-- The eight groups of an IPv6 address. -/
def groupsOfValue (v : ℕ) : List ℕ := (List.range 8).map fun i => v / 2 ^ (112 - i * 16) % 65536

theorem number_groupsOfValue {v : ℕ} (hv : v < 2 ^ 128) : number (groupsOfValue v) = v := by
  have hstep : ∀ k, v / 2 ^ (k + 16) * 65536 + v / 2 ^ k % 65536 = v / 2 ^ k := by
    intro k
    rw [pow_add, ← Nat.div_div_eq_div_mul]
    exact Nat.div_add_mod' _ _
  have hfirst : v / 2 ^ 112 % 65536 = v / 2 ^ 112 := Nat.mod_eq_of_lt (by omega)
  have hlast : v / 2 ^ 16 * 65536 + v / 2 ^ 0 % 65536 = v := (hstep 0).trans (by simp)
  have hrange : List.range 8 = [0, 1, 2, 3, 4, 5, 6, 7] := by decide
  unfold groupsOfValue number
  rw [hrange]
  simp only [List.map_cons, List.map_nil, List.foldl_cons, List.foldl_nil, Nat.zero_mul,
    Nat.sub_zero, Nat.zero_add, Nat.reduceMul, Nat.reduceSub]
  rw [hfirst, hstep 96, hstep 80, hstep 64, hstep 48, hstep 32, hstep 16, hlast]

theorem length_groupsOfValue (v : ℕ) : (groupsOfValue v).length = 8 := by
  simp [groupsOfValue]

theorem groupsOfValue_lt (v : ℕ) : ∀ n ∈ groupsOfValue v, n < 65536 := by
  intro n hn
  obtain ⟨i, -, rfl⟩ := List.mem_map.mp hn
  exact Nat.mod_lt _ (by norm_num)

theorem isHex_hexText {ns : List ℕ} (h : ∀ n ∈ ns, n < 65536) :
    IsHex (join (ch ':') (ns.map hexText)) ns := by
  refine ⟨ns.map hexText, ?_, rfl, ?_⟩
  · intro g hg
    obtain ⟨n, hn, rfl⟩ := List.mem_map.mp hg
    exact isGroup_hexText (h n hn)
  · rw [List.map_map]
    exact ((List.map_congr_left fun n _ => hexNumber_hexText n).trans (List.map_id ns)).symm

/-- The run that `::` stands for: at least two zeros, from its start on. -/
theorem bestRun_spec {values : List ℕ} {start len : ℕ} (h : bestRun values = some (start, len)) :
    2 ≤ len ∧ len = zerosAt values start := by
  have hfold : ∀ (is : List ℕ) (best : Option (ℕ × ℕ)),
      (∀ p ∈ best, 2 ≤ p.2 ∧ p.2 = zerosAt values p.1) →
      ∀ p ∈ is.foldl (fun best i =>
        let run := zerosAt values i
        if 2 ≤ run && best.all (·.2 < run) then some (i, run) else best) best,
      2 ≤ p.2 ∧ p.2 = zerosAt values p.1 := by
    intro is
    induction is with
    | nil => exact fun _ hbest => hbest
    | cons i is ih =>
      intro best hbest
      rw [List.foldl_cons]
      apply ih
      dsimp only
      split_ifs with hrun
      · rintro p hp
        cases hp
        rw [Bool.and_eq_true, decide_eq_true_eq] at hrun
        exact ⟨hrun.1, rfl⟩
      · exact hbest
  exact hfold (List.range values.length) none (by simp) (start, len) h

/-- The zeros of a run stand where the run is. -/
theorem eq_of_zerosAt (values : List ℕ) (start : ℕ) :
    values = values.take start ++ List.replicate (zerosAt values start) 0 ++
      values.drop (start + zerosAt values start) := by
  have hzeros : (values.drop start).takeWhile (· = 0) =
      List.replicate (zerosAt values start) 0 := by
    rw [List.eq_replicate_iff]
    exact ⟨rfl, fun n hn => by simpa using List.mem_takeWhile_imp hn⟩
  have hrest : values.drop (start + zerosAt values start) =
      (values.drop start).dropWhile (· = 0) := by
    rw [← List.drop_drop]
    conv_lhs => rw [← List.takeWhile_append_dropWhile (p := (· = 0)) (l := values.drop start)]
    exact List.drop_left
  rw [hrest, ← hzeros, List.append_assoc, List.takeWhile_append_dropWhile,
    List.take_append_drop]

theorem formatIp_v6 (v : ℕ) : formatIp ⟨.v6, v⟩ =
    match bestRun (groupsOfValue v) with
    | none => join (ch ':') ((groupsOfValue v).map hexText)
    | some (start, len) => join (ch ':') (((groupsOfValue v).map hexText).take start) ++ js "::" ++
        join (ch ':') (((groupsOfValue v).map hexText).drop (start + len)) := rfl

/-- **The text of an IPv6 address is one of the grammar.** -/
theorem isV6_formatIp {v : ℕ} (hv : v < 2 ^ 128) : IsV6 (formatIp ⟨.v6, v⟩) v := by
  have hvalue := number_groupsOfValue hv
  have hlen := length_groupsOfValue v
  have hsmall := groupsOfValue_lt v
  rw [formatIp_v6]
  generalize groupsOfValue v = values at hvalue hlen hsmall ⊢
  subst hvalue
  cases hrun : bestRun values with
  | none => exact .full (.inl (isHex_hexText hsmall)) hlen
  | some p =>
    obtain ⟨start, len⟩ := p
    obtain ⟨hlong, rfl⟩ := bestRun_spec hrun
    have hsplit := eq_of_zerosAt values start
    have hcount := congrArg List.length hsplit
    simp only [List.length_append, List.length_replicate] at hcount
    dsimp only
    rw [← List.map_take, ← List.map_drop, List.append_assoc]
    have hshort := @IsV6.short _ _ (values.take start) (values.drop (start + zerosAt values start))
      (isHex_hexText fun n hn => hsmall n (List.mem_of_mem_take hn))
      (.inl (isHex_hexText fun n hn => hsmall n (List.mem_of_mem_drop hn))) (by omega)
    rwa [show 8 - ((values.take start).length +
      (values.drop (start + zerosAt values start)).length) = zerosAt values start by omega,
      ← hsplit] at hshort

theorem isAddress_of_bare {t : Text} {ip : ParsedIp} (h : IsBare t ip) : IsAddress t ip := by
  refine ⟨t, .inl (trim_eq_self ?_), h⟩
  intro u hu
  rcases h.signs hu with rfl | rfl | hhex
  · decide
  · decide
  · exact hexValue_not_blank hhex

/-- **An address is read from its own text.** -/
theorem parseIp_formatIp {ip : ParsedIp} (hip : ip.Fits) :
    parseIp (formatIp ip) = some ip.canonical := by
  obtain ⟨family, v⟩ := ip
  rw [parseIp_iff]
  apply isAddress_of_bare
  cases family with
  | v4 => exact .inl ⟨v, parseV4_iff.mp (parseV4_formatIp hip), rfl⟩
  | v6 => exact .inr ⟨v, isV6_formatIp hip, rfl⟩

/-! ## The bits of a network -/

/-- Two addresses of a family with the same leading bits. -/
def SamePrefix (n : ℕ) (a b : ParsedIp) : Prop :=
  a.family = b.family ∧
    ∀ i < n, a.value.testBit (a.family.bits - 1 - i) = b.value.testBit (b.family.bits - 1 - i)

theorem div_eq_iff_testBit {a b k : ℕ} :
    a / 2 ^ k = b / 2 ^ k ↔ ∀ j, k ≤ j → a.testBit j = b.testBit j := by
  constructor
  · intro h j hj
    have hbit := congrArg (Nat.testBit · (j - k)) h
    simpa [Nat.testBit_div_two_pow, Nat.sub_add_cancel hj] using hbit
  · intro h
    apply Nat.eq_of_testBit_eq
    intro i
    rw [Nat.testBit_div_two_pow, Nat.testBit_div_two_pow]
    exact h _ (Nat.le_add_left _ _)

theorem samePrefix_iff {n : ℕ} {a b : ParsedIp} (ha : a.Fits) (hb : b.Fits)
    (hn : n ≤ a.family.bits) : SamePrefix n a b ↔
      a.family = b.family ∧ a.value / 2 ^ (a.family.bits - n) = b.value / 2 ^ (a.family.bits - n) := by
  obtain ⟨family, v⟩ := a
  obtain ⟨family', w⟩ := b
  unfold SamePrefix ParsedIp.Fits at *
  dsimp only at *
  apply and_congr_right
  rintro rfl
  rw [div_eq_iff_testBit]
  constructor
  · intro h j hj
    by_cases hlt : j < family.bits
    · have hbit := h (family.bits - 1 - j) (by omega)
      rwa [show family.bits - 1 - (family.bits - 1 - j) = j by omega] at hbit
    · have hpow : 2 ^ family.bits ≤ 2 ^ j := Nat.pow_le_pow_right (by norm_num) (by omega)
      rw [Nat.testBit_lt_two_pow (ha.trans_le hpow), Nat.testBit_lt_two_pow (hb.trans_le hpow)]
  · intro h i hi
    exact h _ (by omega)

/-- **A network holds the addresses that begin with its bits.** -/
theorem ipInRange_samePrefix {ip : ParsedIp} {r : IpRange} (hip : ip.Fits) (hr : r.Aligned) :
    ipInRange ip r = true ↔ SamePrefix r.prefixLength ip ⟨r.family, r.base⟩ := by
  by_cases hfamily : ip.family = r.family
  · have hle : r.prefixLength ≤ ip.family.bits := hfamily ▸ hr.prefix_le
    have hbase : ParsedIp.Fits ⟨r.family, r.base⟩ := hr.fits
    have hsize : 0 < r.size := Nat.two_pow_pos _
    have hsame : r.size = 2 ^ (ip.family.bits - r.prefixLength) := by
      rw [hfamily]
      rfl
    rw [ipInRange_iff, samePrefix_iff hip hbase hle, ← hsame]
    apply and_congr_right
    intro _
    constructor
    · intro h
      rw [← h, Nat.mul_div_cancel _ hsize]
    · intro h
      rw [h]
      exact hr.base
  · rw [ipInRange_iff]
    exact ⟨fun h => absurd h.1 hfamily, fun h => absurd h.1 hfamily⟩

theorem SamePrefix.symm {n : ℕ} {a b : ParsedIp} (h : SamePrefix n a b) : SamePrefix n b a :=
  ⟨h.1.symm, fun i hi => (h.2 i hi).symm⟩

theorem SamePrefix.trans {n : ℕ} {a b c : ParsedIp} (hab : SamePrefix n a b)
    (hbc : SamePrefix n b c) : SamePrefix n a c :=
  ⟨hab.1.trans hbc.1, fun i hi => (hab.2 i hi).trans (hbc.2 i hi)⟩

/-- What a text of a network names: the address before its slash. -/
theorem address_of_parseCidr {t : Text} {r : IpRange} (h : parseCidr t = some r) :
    ∃ a, IsAddress ((trim t).takeWhile (· ≠ ch '/')) a ∧
      SamePrefix r.prefixLength a ⟨r.family, r.base⟩ := by
  have hrange : ∀ (a : ParsedIp) (n : ℕ), a.Fits → n ≤ a.family.bits →
      SamePrefix n a ⟨a.family, (rangeOf a n).base⟩ := by
    intro a n ha hn
    have hal := aligned_rangeOf ha hn
    refine (ipInRange_samePrefix ha hal).mp (ipInRange_iff.mpr ⟨rfl, rfl⟩)
  unfold parseCidr at h
  obtain ⟨a, ha, h⟩ := Option.bind_eq_some_iff.mp h
  refine ⟨a, parseIp_iff.mp ha, ?_⟩
  have hfits := fits_of_parseIp ha
  split at h
  · cases h
    exact hrange a _ hfits le_rfl
  · obtain ⟨n, hn, rfl⟩ := Option.map_eq_some_iff.mp h
    exact hrange a n hfits (le_of_parsePrefix hn)

/-- The laws of addresses and networks: an address is read from its text (a mapped one as the
IPv4 address), the accepted texts are those of the grammar with their values, and an address is
in a network exactly when it begins with its bits. -/
theorem ip_library_laws :
    (∀ ip : ParsedIp, ip.Fits → parseIp (formatIp ip) = some ip.canonical) ∧
      (∀ (s : Text) (ip : ParsedIp), parseIp s = some ip ↔ IsAddress s ip) ∧
      (∀ (r : IpRange) (ip : ParsedIp), r.Aligned → ip.Fits →
        (ipInRange ip r = true ↔ SamePrefix r.prefixLength ip ⟨r.family, r.base⟩)) ∧
      ∀ (t : Text) (r : IpRange), parseCidr t = some r → r.Aligned ∧
        ∃ a, IsAddress ((trim t).takeWhile (· ≠ ch '/')) a ∧
          ∀ ip : ParsedIp, ip.Fits → (ipInRange ip r = true ↔ SamePrefix r.prefixLength ip a) := by
  refine ⟨fun ip => parseIp_formatIp, fun s ip => parseIp_iff,
    fun r ip hr hip => ipInRange_samePrefix hip hr, fun t r h => ?_⟩
  have hr := aligned_of_parseCidr h
  obtain ⟨a, ha, hsame⟩ := address_of_parseCidr h
  refine ⟨hr, a, ha, fun ip hip => ?_⟩
  rw [ipInRange_samePrefix hip hr]
  exact ⟨fun h => h.trans hsame.symm, fun h => h.trans hsame⟩

/-- A mapped address is not read as the IPv6 address that was written. -/
theorem mapped_address_becomes_v4 :
    ParsedIp.Fits ⟨.v6, 0xffff01020304⟩ ∧
      parseIp (formatIp ⟨.v6, 0xffff01020304⟩) = some ⟨.v4, 0x01020304⟩ := by
  constructor
  · unfold ParsedIp.Fits Family.bits
    norm_num
  · decide

end Klick.Net
