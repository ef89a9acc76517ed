-- The grammar of address texts, stated without the reader, and that `parseIp`
-- accepts exactly its texts with their values.
import Klick.NetRanges

open Js Klick.QuickCheck

namespace Klick.Net

/-! ## The grammar -/

/-- Four numbers up to 255 without leading zeros, with dots between them. -/
def IsV4 (s : Text) (v : ℕ) : Prop :=
  ∃ a b c d : ℕ, (∀ n ∈ [a, b, c, d], n ≤ 255) ∧
    s = join (ch '.') ([a, b, c, d].map decimal) ∧ v = quad a b c d

/-- Groups of one to four hexadecimal digits, with colons between them; maybe none. -/
def IsHex (t : Text) (ns : List ℕ) : Prop :=
  ∃ gs : List Text, (∀ g ∈ gs, isGroup g = true) ∧ t = join (ch ':') gs ∧ ns = gs.map hexNumber

/-- Groups, of which an IPv4 address may be the last two. -/
def IsTail (t : Text) (ns : List ℕ) : Prop :=
  IsHex t ns ∨ ∃ (gs : List Text) (s : Text) (v : ℕ), (∀ g ∈ gs, isGroup g = true) ∧ IsV4 s v ∧
    t = join (ch ':') (gs ++ [s]) ∧ ns = gs.map hexNumber ++ [v / 65536, v % 65536]

/-- Eight groups, or fewer with one `::` for the zeros that are missing. -/
inductive IsV6 : Text → ℕ → Prop
  | full {t : Text} {ns : List ℕ} : IsTail t ns → ns.length = 8 → IsV6 t (number ns)
  | short {h r : Text} {ms ns : List ℕ} : IsHex h ms → IsTail r ns → ms.length + ns.length ≤ 7 →
      IsV6 (h ++ (js "::" ++ r))
        (number (ms ++ List.replicate (8 - (ms.length + ns.length)) 0 ++ ns))

/-- An address as such: one that is mapped to IPv6 is the IPv4 address. -/
def unmapped (v : ℕ) : ParsedIp := if v / 2 ^ 32 = 0xffff then ⟨.v4, v % 2 ^ 32⟩ else ⟨.v6, v⟩

/-- A text of an address, without what may stand around it. -/
def IsBare (t : Text) (ip : ParsedIp) : Prop :=
  (∃ v, IsV4 t v ∧ ip = ⟨.v4, v⟩) ∨ ∃ v, IsV6 t v ∧ ip = unmapped v

/-- A text of an address, blanks around it left out, and maybe in brackets. -/
def IsAddress (s : Text) (ip : ParsedIp) : Prop :=
  ∃ t, (trim s = t ∨ trim s = ch '[' :: (t ++ [ch ']'])) ∧ IsBare t ip

/-! ## IPv4 -/

theorem quad_v4From {a b c d : ℕ} (h : ∀ n ∈ [a, b, c, d], n ≤ 255) :
    join (ch '.') ([a, b, c, d].map decimal) = v4From (a * 256 + b) (c * 256 + d) ∧
      quad a b c d = (a * 256 + b) * 65536 + (c * 256 + d) := by
  simp only [List.forall_mem_cons] at h
  obtain ⟨-, hb, -, hd, -⟩ := h
  have hpair : ∀ m n, n ≤ 255 → (m * 256 + n) / 256 = m ∧ (m * 256 + n) % 256 = n := by omega
  constructor
  · unfold v4From
    rw [(hpair a b hb).1, (hpair a b hb).2, (hpair c d hd).1, (hpair c d hd).2]
  · unfold quad
    ring

theorem parseV4_iff {s : Text} {v : ℕ} : parseV4 s = some v ↔ IsV4 s v := by
  constructor
  · intro h
    obtain ⟨a, b, c, d, hsplit, hparts, rfl⟩ := parts_of_parseV4 h
    refine ⟨natOf a, natOf b, natOf c, natOf d, ?_, ?_, rfl⟩
    · have hsmall := hparts.small
      simpa using hsmall
    · have hwritten : ∀ p ∈ [a, b, c, d], decimal (natOf p) = p := by
        unfold parseV4 at h
        rw [hsplit] at h
        simp only [Option.ite_none_right_eq_some, Bool.and_eq_true, List.all_eq_true,
          Bool.or_eq_true, decide_eq_true_eq] at h
        intro p hp
        rcases (h.1.2 p hp).1 with rfl | hpos
        · decide
        · exact (decimal_natOf hpos).1
      simp only [List.forall_mem_cons] at hwritten
      obtain ⟨ha, hb, hc, hd, -⟩ := hwritten
      rw [List.map_cons, List.map_cons, List.map_cons, List.map_cons, List.map_nil, ha, hb, hc, hd]
      exact hparts.text
  · rintro ⟨a, b, c, d, hsmall, rfl, rfl⟩
    obtain ⟨htext, hvalue⟩ := quad_v4From hsmall
    simp only [List.forall_mem_cons] at hsmall
    rw [htext, hvalue]
    exact parseV4_v4From (by omega) (by omega)

/-! ## Groups -/

theorem radixValue_iff {g : Text} {n : ℕ} :
    radixValue 16 g = some n ↔ g ≠ [] ∧ (∀ u ∈ g, (hexValue u).isSome = true) ∧ n = hexNumber g := by
  have hfold : ∀ (g : Text) (n : ℕ), g.foldl (fun acc u => do
      let n ← acc
      let d ← hexValue u
      if d < 16 then some (n * 16 + d) else none) (some 0) = some n ↔
      (∀ u ∈ g, (hexValue u).isSome = true) ∧ n = hexNumber g := by
    intro g
    induction g using List.reverseRecOn with
    | nil =>
      intro n
      rw [List.foldl_nil, Option.some_inj]
      exact ⟨fun h => ⟨by simp, h.symm⟩, fun h => h.2.symm⟩
    | append_singleton g u ih =>
      intro n
      rw [List.foldl_append, List.foldl_cons, List.foldl_nil, hexNumber_concat]
      cases hu : hexValue u with
      | none =>
        constructor
        · intro h
          obtain ⟨m, -, h⟩ := Option.bind_eq_some_iff.mp h
          cases h
        · rintro ⟨h, -⟩
          simpa [hu] using h u (by simp)
      | some d =>
        constructor
        · intro h
          obtain ⟨m, hm, h⟩ := Option.bind_eq_some_iff.mp h
          obtain ⟨hall, rfl⟩ := (ih m).mp hm
          have h : (if d < 16 then some (hexNumber g * 16 + d) else none) = some n := h
          rw [if_pos (hexValue_lt hu)] at h
          refine ⟨?_, (Option.some.inj h).symm⟩
          rw [List.forall_mem_append]
          exact ⟨hall, by simp [hu]⟩
        · rintro ⟨hall, rfl⟩
          rw [(ih _).mpr ⟨fun w hw => hall w (List.mem_append_left _ hw), rfl⟩]
          exact if_pos (hexValue_lt hu)
  unfold radixValue
  split_ifs with hg
  · simp [hg]
  · rw [hfold, and_iff_right hg]

theorem groupValue_iff {g : Text} {n : ℕ} :
    groupValue g = some n ↔ isGroup g = true ∧ n = hexNumber g := by
  unfold groupValue
  rw [Option.ite_none_right_eq_some, radixValue_iff, isGroup_iff]
  tauto

theorem mapM_groupValue {gs : List Text} {ns : List ℕ} : gs.mapM groupValue = some ns ↔
    (∀ g ∈ gs, isGroup g = true) ∧ ns = gs.map hexNumber := by
  induction gs generalizing ns with
  | nil =>
    rw [List.mapM_nil]
    exact ⟨fun h => ⟨by simp, (Option.some.inj h).symm⟩, fun h => congrArg some h.2.symm⟩
  | cons g gs ih =>
    rw [List.mapM_cons, List.forall_mem_cons]
    constructor
    · intro h
      obtain ⟨n, hn, h⟩ := Option.bind_eq_some_iff.mp h
      obtain ⟨ms, hms, h⟩ := Option.bind_eq_some_iff.mp h
      obtain ⟨hgroup, rfl⟩ := groupValue_iff.mp hn
      obtain ⟨hgroups, rfl⟩ := ih.mp hms
      cases h
      exact ⟨⟨hgroup, hgroups⟩, rfl⟩
    · rintro ⟨⟨hgroup, hgroups⟩, rfl⟩
      rw [groupValue_iff.mpr ⟨hgroup, rfl⟩, ih.mpr ⟨hgroups, rfl⟩]
      rfl

/-- `parseGroups` takes eight groups, or fewer with one `::`. -/
theorem parseGroups_iff {t : Text} {v : ℕ} : parseGroups t = some v ↔
    (∃ ns, IsHex t ns ∧ ns.length = 8 ∧ v = number ns) ∨
    ∃ h r ms ns, t = h ++ (js "::" ++ r) ∧ IsHex h ms ∧ IsHex r ns ∧ ms.length + ns.length ≤ 7 ∧
      v = number (ms ++ List.replicate (8 - (ms.length + ns.length)) 0 ++ ns) := by
  have hzero : hexNumber [ch '0'] = 0 := by decide
  have hzeroGroup : isGroup [ch '0'] = true := by decide
  constructor
  · intro h
    obtain ⟨all, hall, h⟩ := Option.bind_eq_some_iff.mp h
    obtain ⟨values, hvalues, h⟩ := Option.bind_eq_some_iff.mp h
    obtain ⟨hgroups, rfl⟩ := mapM_groupValue.mp hvalues
    have hv : number (all.map hexNumber) = v := Option.some.inj h
    have hlen := length_groupsOf hall
    unfold groupsOf at hall
    split at hall
    · rename_i p hsplit
      rw [Option.ite_none_right_eq_some] at hall
      cases hall.2
      have hone : p = t := by
        have hjoin := intercalate_splitDouble [] t
        rw [hsplit] at hjoin
        simpa [List.intercalate] using hjoin
      subst hone
      exact .inl ⟨_, ⟨_, hgroups, (join_groups p).symm, rfl⟩, by simpa using hlen, hv.symm⟩
    · rename_i p r hsplit
      dsimp only at hall
      rw [Option.ite_none_right_eq_some] at hall
      obtain ⟨hgiven, hall⟩ := hall
      cases hall
      simp only [List.forall_mem_append] at hgroups
      refine .inr ⟨p, r, _, _, eq_of_splitDouble hsplit,
        ⟨_, hgroups.1.1, (join_groups p).symm, rfl⟩, ⟨_, hgroups.2, (join_groups r).symm, rfl⟩,
        ?_, ?_⟩
      · rw [List.length_map, List.length_map]
        omega
      · rw [← hv, List.map_append, List.map_append, List.map_replicate, hzero, List.length_map,
          List.length_map]
    · cases hall
  · rintro (⟨ns, ⟨gs, hgs, rfl, rfl⟩, hlen, rfl⟩ | ⟨h, r, ms, ns, rfl, ⟨ps, hps, rfl, rfl⟩,
      ⟨qs, hqs, rfl, rfl⟩, hlen, rfl⟩)
    · have htidy := tidy_groups hgs
      rw [List.length_map] at hlen
      have hall : groupsOf (join (ch ':') gs) = some gs := by
        unfold groupsOf
        rw [splitDouble_one htidy]
        simp [groups_join htidy, hlen]
      unfold parseGroups
      rw [hall]
      simp only [Option.bind_eq_bind, Option.bind_some, mapM_groupValue.mpr ⟨hgs, rfl⟩]
      rfl
    · rw [List.length_map, List.length_map] at hlen ⊢
      have hall : groupsOf (join (ch ':') ps ++ (js "::" ++ join (ch ':') qs)) =
          some (ps ++ List.replicate (8 - (ps.length + qs.length)) [ch '0'] ++ qs) := by
        unfold groupsOf
        rw [splitDouble_two (tidy_groups hps) (tidy_groups hqs)]
        simp only [groups_join (tidy_groups hps), groups_join (tidy_groups hqs)]
        rw [if_pos (by omega)]
      have hgroups : ∀ g ∈ ps ++ List.replicate (8 - (ps.length + qs.length)) [ch '0'] ++ qs,
          isGroup g = true := by
        simp only [List.forall_mem_append]
        refine ⟨⟨hps, ?_⟩, hqs⟩
        intro g hg
        rw [List.eq_of_mem_replicate hg]
        exact hzeroGroup
      unfold parseGroups
      rw [hall]
      simp only [Option.bind_eq_bind, Option.bind_some, mapM_groupValue.mpr ⟨hgroups, rfl⟩]
      rw [List.map_append, List.map_append, List.map_replicate, hzero]
      rfl

/-! ## An IPv4 address at the end -/

theorem IsV4.no_colon {s : Text} {v : ℕ} (h : IsV4 s v) : ch ':' ∉ s :=
  not_mem_dotted (parseV4_iff.mpr h) (by decide) (by decide)

theorem IsV4.dot_mem {s : Text} {v : ℕ} (h : IsV4 s v) : ch '.' ∈ s := by
  obtain ⟨a, b, c, d, -, hparts, -⟩ := parts_of_parseV4 (parseV4_iff.mpr h)
  exact hparts.dot_mem

/-- What `parseV6` does with what comes after the last colon. -/
theorem parseV6_append {w l : Text} (hpercent : ch '%' ∉ w ++ ch ':' :: l) (hl : ch ':' ∉ l) :
    parseV6 (w ++ ch ':' :: l) =
      if ch '.' ∈ l then (parseV4 l).bind fun tail =>
        (parseGroups (w ++ ch ':' :: js "0:0")).bind fun v => some (v / 2 ^ 32 * 2 ^ 32 + tail)
      else parseGroups (w ++ ch ':' :: l) := by
  have hall : ∀ u ∈ l.reverse, decide (u ≠ ch ':') = true := by
    intro u hu
    rw [decide_eq_true_eq]
    rintro rfl
    exact hl (List.mem_reverse.mp hu)
  have hlast : ((w ++ ch ':' :: l).reverse.takeWhile (· ≠ ch ':')).reverse = l := by
    rw [List.reverse_append, List.reverse_cons, List.append_assoc, List.singleton_append,
      List.takeWhile_append_of_pos hall, List.takeWhile_cons_of_neg (by simp), List.append_nil,
      List.reverse_reverse]
  have htake : (w ++ ch ':' :: l).take ((w ++ ch ':' :: l).length - l.length) = w ++ [ch ':'] := by
    have hshape : w ++ ch ':' :: l = (w ++ [ch ':']) ++ l := by simp
    rw [hshape, List.length_append, Nat.add_sub_cancel, List.take_left]
  unfold parseV6
  rw [if_neg (by simpa using hpercent)]
  dsimp only
  rw [hlast, htake, List.append_assoc, List.singleton_append]
  simp

/-- A text with a colon is what comes before its last colon, and what comes after. -/
theorem exists_last_colon {s : Text} (h : ch ':' ∈ s) :
    ∃ w l, s = w ++ ch ':' :: l ∧ ch ':' ∉ l := by
  obtain ⟨as, bs, hs, has⟩ := List.eq_append_cons_of_mem (List.mem_reverse.mpr h)
  refine ⟨bs.reverse, as.reverse, ?_, by simpa using has⟩
  rw [← List.reverse_reverse s, hs]
  simp

/-- Two groups of zero at the end are the last of the groups. -/
theorem zeros_last {gs : List Text} {pieces : List Text} (hgs : ∀ g ∈ gs, isGroup g = true)
    {w : Text} (h : pieces ++ (join (ch ':') gs).splitOn (ch ':') =
      w.splitOn (ch ':') ++ [[ch '0'], [ch '0']]) (hpieces : pieces.getLast? ≠ some [ch '0']) :
    ∃ fs, gs = fs ++ [[ch '0'], [ch '0']] := by
  have htidy := tidy_groups hgs
  have hsplit : gs ≠ [] → (join (ch ':') gs).splitOn (ch ':') = gs := fun hne =>
    List.splitOn_intercalate _ (fun g hg => (htidy g hg).2) hne
  rcases List.eq_nil_or_concat' gs with rfl | ⟨rest, y, rfl⟩
  · rw [join_nil, List.splitOn_nil] at h
    have hlast := congrArg List.getLast? h
    simp at hlast
  · rw [hsplit (by simp)] at h
    rcases List.eq_nil_or_concat' rest with rfl | ⟨fs, x, rfl⟩
    · have hshape : w.splitOn (ch ':') ++ [[ch '0'], [ch '0']] =
          (w.splitOn (ch ':') ++ [[ch '0']]) ++ [[ch '0']] := by simp
      rw [List.nil_append, hshape] at h
      obtain ⟨hfront, -⟩ := List.append_inj' h rfl
      rw [hfront] at hpieces
      simp at hpieces
    · have hshape : pieces ++ (fs ++ [x] ++ [y]) = (pieces ++ fs) ++ [x, y] := by simp
      rw [hshape] at h
      obtain ⟨-, hxy⟩ := List.append_inj' h rfl
      refine ⟨fs, ?_⟩
      rw [← hxy]
      simp

theorem number_tail (ns : List ℕ) (v : ℕ) :
    number (ns ++ [0, 0]) / 2 ^ 32 * 2 ^ 32 + v = number (ns ++ [v / 65536, v % 65536]) := by
  rw [number_append, number_append]
  simp only [List.length_cons, List.length_nil, number, List.foldl_cons, List.foldl_nil]
  omega

/-- The zeros in the place of an IPv4 address at the end of groups. -/
theorem join_zeros (fs : List Text) (s : Text) :
    ∃ w, join (ch ':') (fs ++ [[ch '0'], [ch '0']]) = w ++ js "0:0" ∧
      join (ch ':') (fs ++ [s]) = w ++ s := by
  refine ⟨fs.flatMap (· ++ [ch ':']), ?_, ?_⟩
  · rw [join_append _ _ (List.cons_ne_nil _ _)]
    rfl
  · rw [join_append _ _ (List.cons_ne_nil _ _), join_singleton]

theorem isV6_of_zeros {w l : Text} {v tail : ℕ} (hl : IsV4 l tail)
    (h : parseGroups (w ++ ch ':' :: js "0:0") = some v) :
    IsV6 (w ++ ch ':' :: l) (v / 2 ^ 32 * 2 ^ 32 + tail) := by
  have hzero : hexNumber [ch '0'] = 0 := by decide
  have hshape : ∀ t : Text, w ++ ch ':' :: t = (w ++ [ch ':']) ++ t := by simp
  have hpieces : (w ++ ch ':' :: js "0:0").splitOn (ch ':') =
      w.splitOn (ch ':') ++ [[ch '0'], [ch '0']] := by
    rw [List.splitOn_append_cons_self]
    congr 1
  rcases parseGroups_iff.mp h with ⟨ns, ⟨gs, hgs, ht, rfl⟩, hlen, rfl⟩ |
    ⟨h, r, ms, ns, ht, ⟨ps, hps, rfl, rfl⟩, ⟨qs, hqs, rfl, rfl⟩, hlen, rfl⟩
  · rw [ht] at hpieces
    obtain ⟨fs, rfl⟩ := @zeros_last _ [] hgs _ hpieces (by simp)
    obtain ⟨w', hw', hs'⟩ := join_zeros fs l
    rw [hw', hshape] at ht
    rw [hshape, List.append_cancel_right ht, ← hs', List.map_append]
    simp only [List.map_cons, List.map_nil, hzero, number_tail]
    refine .full (.inr ⟨fs, l, tail, fun g hg => hgs g (List.mem_append_left _ hg), hl, rfl, rfl⟩) ?_
    simpa using hlen
  · rw [ht] at hpieces
    have hsplit : (join (ch ':') ps ++ (js "::" ++ join (ch ':') qs)).splitOn (ch ':') =
        ((join (ch ':') ps).splitOn (ch ':') ++ [[]]) ++ (join (ch ':') qs).splitOn (ch ':') := by
      change (join (ch ':') ps ++ ch ':' :: ([] ++ ch ':' :: join (ch ':') qs)).splitOn _ = _
      rw [List.splitOn_append_cons_self, List.splitOn_append_cons_self, List.append_assoc]
      rfl
    rw [hsplit] at hpieces
    obtain ⟨fs, rfl⟩ := zeros_last hqs hpieces (by simp)
    obtain ⟨w', hw', hs'⟩ := join_zeros fs l
    rw [hw', hshape, ← List.append_assoc, ← List.append_assoc] at ht
    rw [hshape, List.append_cancel_right ht, List.append_assoc, List.append_assoc, ← hs',
      List.map_append]
    simp only [List.map_cons, List.map_nil, hzero, ← List.append_assoc, number_tail]
    have hhead : IsHex (join (ch ':') ps) (ps.map hexNumber) := ⟨ps, hps, rfl, rfl⟩
    have htail : IsTail (join (ch ':') (fs ++ [l]))
        (fs.map hexNumber ++ [tail / 65536, tail % 65536]) :=
      .inr ⟨fs, l, tail, fun g hg => hqs g (List.mem_append_left _ hg), hl, rfl, rfl⟩
    have hshort := IsV6.short hhead htail (by simpa using hlen)
    simpa [List.append_assoc] using hshort

/-! ## IPv6 -/

theorem IsHex.signs {t : Text} {ns : List ℕ} (h : IsHex t ns) {u : UInt16} (hu : u ∈ t) :
    u = ch ':' ∨ (hexValue u).isSome = true := by
  obtain ⟨gs, hgs, rfl, -⟩ := h
  refine (mem_join hu).imp_right ?_
  rintro ⟨g, hg, hug⟩
  exact (isGroup_iff.mp (hgs g hg)).2.2 u hug

theorem IsV4.signs {s : Text} {v : ℕ} (h : IsV4 s v) {u : UInt16} (hu : u ∈ s) :
    IsAddressSign u := signs_of_parseV4 (parseV4_iff.mpr h) hu

theorem IsTail.signs {t : Text} {ns : List ℕ} (h : IsTail t ns) {u : UInt16} (hu : u ∈ t) :
    IsAddressSign u := by
  rcases h with h | ⟨gs, s, v, hgs, hs, rfl, -⟩
  · rcases h.signs hu with hcolon | hhex
    · exact .inl hcolon
    · exact .inr (.inr hhex)
  · rcases mem_join hu with hcolon | ⟨g, hg, hug⟩
    · exact .inl hcolon
    · rcases List.mem_append.mp hg with hg | hg
      · exact .inr (.inr ((isGroup_iff.mp (hgs g hg)).2.2 u hug))
      · rw [List.mem_singleton.mp hg] at hug
        exact hs.signs hug

theorem mem_colons {u : UInt16} (h : u ∈ js "::") : u = ch ':' := by
  have hcolons : js "::" = [ch ':', ch ':'] := by decide
  rw [hcolons] at h
  simpa using h

theorem IsV6.signs {t : Text} {v : ℕ} (h : IsV6 t v) {u : UInt16} (hu : u ∈ t) :
    IsAddressSign u := by
  cases h with
  | full htail _ => exact htail.signs hu
  | short hhead htail _ =>
    rcases List.mem_append.mp hu with hu | hu
    · rcases hhead.signs hu with hcolon | hhex
      · exact .inl hcolon
      · exact .inr (.inr hhex)
    · rcases List.mem_append.mp hu with hu | hu
      · exact .inl (mem_colons hu)
      · exact htail.signs hu

theorem colon_mem_join {gs : List Text} (h : 2 ≤ gs.length) : ch ':' ∈ join (ch ':') gs := by
  match gs, h with
  | g :: g' :: gs, _ =>
    rw [join_cons_cons]
    simp

theorem IsV6.colon_mem {t : Text} {v : ℕ} (h : IsV6 t v) : ch ':' ∈ t := by
  cases h with
  | full htail hlen =>
    rcases htail with ⟨gs, -, rfl, rfl⟩ | ⟨gs, s, v, -, -, rfl, rfl⟩
    · rw [List.length_map] at hlen
      exact colon_mem_join (by omega)
    · simp only [List.length_append, List.length_map, List.length_cons, List.length_nil] at hlen
      exact colon_mem_join (by simp; omega)
  | short =>
    have hcolon : ch ':' ∈ js "::" := by decide
    simp [hcolon]

/-- The parts of the grammar that `parseGroups` takes. -/
theorem parseGroups_full {t : Text} {ns : List ℕ} (h : IsHex t ns) (hlen : ns.length = 8) :
    parseGroups t = some (number ns) := parseGroups_iff.mpr (.inl ⟨ns, h, hlen, rfl⟩)

theorem parseGroups_short {h r : Text} {ms ns : List ℕ} (hh : IsHex h ms) (hr : IsHex r ns)
    (hlen : ms.length + ns.length ≤ 7) : parseGroups (h ++ (js "::" ++ r)) =
      some (number (ms ++ List.replicate (8 - (ms.length + ns.length)) 0 ++ ns)) :=
  parseGroups_iff.mpr (.inr ⟨h, r, ms, ns, rfl, hh, hr, hlen, rfl⟩)

/-- Without a dot the last piece is a group like the others. -/
theorem parseV6_plain {s : Text} (hcolon : ch ':' ∈ s) (hpercent : ch '%' ∉ s)
    (hdot : ch '.' ∉ s) : parseV6 s = parseGroups s := by
  obtain ⟨w, l, rfl, hl⟩ := exists_last_colon hcolon
  rw [parseV6_append hpercent hl, if_neg]
  intro h
  exact hdot (by simp [h])

/-- With an IPv4 address after the last colon. -/
theorem parseV6_dotted {w l : Text} {v tail : ℕ} (hpercent : ch '%' ∉ w ++ ch ':' :: l)
    (hl : IsV4 l tail) (h : parseGroups (w ++ ch ':' :: js "0:0") = some v) :
    parseV6 (w ++ ch ':' :: l) = some (v / 2 ^ 32 * 2 ^ 32 + tail) := by
  rw [parseV6_append hpercent hl.no_colon, if_pos hl.dot_mem, parseV4_iff.mpr hl, h]
  rfl

/-- Groups and a last piece: the piece comes after the last colon. -/
theorem join_last {gs : List Text} (hne : gs ≠ []) (s : Text) :
    join (ch ':') (gs ++ [s]) = join (ch ':') gs ++ ch ':' :: s := by
  obtain ⟨fs, g, rfl⟩ := (List.eq_nil_or_concat' gs).resolve_left hne
  rw [join_append _ _ (List.cons_ne_nil _ _), join_append _ _ (List.cons_ne_nil _ _),
    List.flatMap_append]
  simp

/-- With zeros for the IPv4 address the same comes before the last colon. -/
theorem join_last_zeros {gs : List Text} (hne : gs ≠ []) :
    join (ch ':') (gs ++ [[ch '0'], [ch '0']]) = join (ch ':') gs ++ ch ':' :: js "0:0" := by
  have hshape : gs ++ [[ch '0'], [ch '0']] = (gs ++ [[ch '0']]) ++ [[ch '0']] := by simp
  have hzeros : js "0:0" = ch '0' :: ch ':' :: [ch '0'] := by decide
  rw [hshape, join_last (by simp), join_last hne, hzeros]
  simp

theorem isHex_zeros {gs : List Text} (hgs : ∀ g ∈ gs, isGroup g = true) :
    IsHex (join (ch ':') (gs ++ [[ch '0'], [ch '0']])) (gs.map hexNumber ++ [0, 0]) := by
  have hzero : hexNumber [ch '0'] = 0 := by decide
  have hzeroGroup : isGroup [ch '0'] = true := by decide
  refine ⟨gs ++ [[ch '0'], [ch '0']], ?_, rfl, ?_⟩
  · rw [List.forall_mem_append]
    exact ⟨hgs, by simpa using hzeroGroup⟩
  · rw [List.map_append]
    simp [hzero]

/-- After `::` too, with groups or none before the IPv4 address. -/
theorem short_last (h : Text) (gs : List Text) : ∃ w : Text,
    (∀ s : Text, h ++ (js "::" ++ join (ch ':') (gs ++ [s])) = w ++ ch ':' :: s) ∧
      h ++ (js "::" ++ join (ch ':') (gs ++ [[ch '0'], [ch '0']])) = w ++ ch ':' :: js "0:0" := by
  have hcolons : js "::" = [ch ':', ch ':'] := by decide
  have hzeros : js "0:0" = ch '0' :: ch ':' :: [ch '0'] := by decide
  by_cases hne : gs = []
  · refine ⟨h ++ [ch ':'], fun s => ?_, ?_⟩
    · simp [hne, hcolons]
    · simp [hne, hcolons, hzeros]
  · refine ⟨h ++ (js "::" ++ join (ch ':') gs), fun s => ?_, ?_⟩
    · rw [join_last hne]
      simp
    · rw [join_last_zeros hne]
      simp

theorem parseV6_iff {s : Text} {v : ℕ} (hcolon : ch ':' ∈ s) : parseV6 s = some v ↔ IsV6 s v := by
  constructor
  · intro h
    have hpercent : ch '%' ∉ s := by
      intro hmem
      simp [parseV6, hmem] at h
    obtain ⟨w, l, rfl, hl⟩ := exists_last_colon hcolon
    rw [parseV6_append hpercent hl] at h
    split_ifs at h with hdot
    · obtain ⟨tail, htail, h⟩ := Option.bind_eq_some_iff.mp h
      obtain ⟨z, hz, h⟩ := Option.bind_eq_some_iff.mp h
      cases h
      exact isV6_of_zeros (parseV4_iff.mp htail) hz
    · rcases parseGroups_iff.mp h with ⟨ns, hns, hlen, rfl⟩ | ⟨h, r, ms, ns, ht, hh, hr, hlen, rfl⟩
      · exact .full (.inl hns) hlen
      · rw [ht]
        exact .short hh (.inl hr) hlen
  · intro h
    have hpercent : ch '%' ∉ s := by
      intro hmem
      have hsign := h.signs hmem
      revert hsign
      unfold IsAddressSign
      decide
    have hplain : ∀ t : Text, (∀ u ∈ t, u = ch ':' ∨ (hexValue u).isSome = true) → ch '.' ∉ t := by
      intro t ht hdot
      have hsign := ht _ hdot
      revert hsign
      decide
    cases h with
    | full htail hlen =>
      rcases htail with hhex | ⟨gs, l, tail, hgs, hl, rfl, rfl⟩
      · rw [parseV6_plain hcolon hpercent (hplain s fun u => hhex.signs)]
        exact parseGroups_full hhex hlen
      · have hne : gs ≠ [] := by
          rintro rfl
          simp at hlen
        rw [join_last hne] at hpercent ⊢
        have hzeros := parseGroups_full (isHex_zeros hgs) (by simpa using hlen)
        rw [join_last_zeros hne] at hzeros
        rw [parseV6_dotted hpercent hl hzeros, number_tail]
    | @short h r ms ns hhead htail hlen =>
      rcases htail with hhex | ⟨gs, l, tail, hgs, hl, rfl, rfl⟩
      · rw [parseV6_plain hcolon hpercent (hplain _ ?_)]
        · exact parseGroups_short hhead hhex hlen
        · intro u hu
          simp only [List.mem_append] at hu
          rcases hu with hu | hu | hu
          · exact hhead.signs hu
          · exact .inl (mem_colons hu)
          · exact hhex.signs hu
      · obtain ⟨w, hw, hwzeros⟩ := short_last h gs
        rw [hw l] at hpercent ⊢
        have hzeros := parseGroups_short hhead (isHex_zeros hgs) (by simpa using hlen)
        rw [hwzeros] at hzeros
        rw [parseV6_dotted hpercent hl hzeros, ← List.append_assoc, number_tail]
        simp [List.append_assoc]

/-! ## Whole addresses -/

theorem parseBare_iff {t : Text} {ip : ParsedIp} :
    (if !t.contains (ch ':') then (parseV4 t).map (⟨.v4, ·⟩)
      else (parseV6 t).map fun v => if v / 2 ^ 32 = 0xffff then ⟨.v4, v % 2 ^ 32⟩ else ⟨.v6, v⟩) =
      some ip ↔ IsBare t ip := by
  by_cases hcolon : ch ':' ∈ t
  · have hv4 : ¬ ∃ v, IsV4 t v ∧ ip = ⟨.v4, v⟩ := by
      rintro ⟨v, hv, -⟩
      exact hv.no_colon hcolon
    rw [if_neg (by simpa using hcolon), Option.map_eq_some_iff, IsBare, or_iff_right hv4]
    apply exists_congr
    intro v
    rw [parseV6_iff hcolon, unmapped, eq_comm (b := ip)]
  · have hv6 : ¬ ∃ v, IsV6 t v ∧ ip = unmapped v := by
      rintro ⟨v, hv, -⟩
      exact hcolon hv.colon_mem
    rw [if_pos (by simpa using hcolon), Option.map_eq_some_iff, IsBare, or_iff_left hv6]
    apply exists_congr
    intro v
    rw [parseV4_iff, eq_comm (b := ip)]

theorem IsBare.signs {t : Text} {ip : ParsedIp} (h : IsBare t ip) {u : UInt16} (hu : u ∈ t) :
    IsAddressSign u := by
  rcases h with ⟨v, hv, -⟩ | ⟨v, hv, -⟩
  · exact hv.signs hu
  · exact hv.signs hu

theorem bracket_no_sign : ¬ IsAddressSign (ch '[') := by
  unfold IsAddressSign
  decide

theorem eq_of_brackets {t : Text} (hhead : t.head? = some (ch '['))
    (hlast : t.getLast? = some (ch ']')) : t = ch '[' :: (t.tail.dropLast ++ [ch ']']) := by
  cases t with
  | nil => cases hhead
  | cons a t =>
    cases hhead
    rcases List.eq_nil_or_concat' t with rfl | ⟨x, b, rfl⟩
    · revert hlast
      decide
    · rw [← List.cons_append, List.getLast?_concat] at hlast
      cases hlast
      simp

/-- An address neither begins nor ends with a bracket. -/
theorem IsBare.bare_eq {s t : Text} {ip : ParsedIp} (h : IsBare t ip)
    (ht : trim s = t ∨ trim s = ch '[' :: (t ++ [ch ']'])) : bare s = t := by
  unfold bare
  rcases ht with ht | ht
  · rw [ht, if_neg]
    simp only [Bool.and_eq_true, decide_eq_true_eq, not_and]
    intro hhead
    exact absurd (h.signs (List.mem_of_head? hhead)) bracket_no_sign
  · rw [ht, if_pos]
    · simp
    · simp [List.getLast?_cons]

/-- **The accepted texts are those of the grammar, with their values.** -/
theorem parseIp_iff {s : Text} {ip : ParsedIp} : parseIp s = some ip ↔ IsAddress s ip := by
  rw [parseIp_bare, parseBare_iff]
  constructor
  · intro h
    refine ⟨bare s, ?_, h⟩
    unfold bare
    split_ifs with hb
    · right
      rw [Bool.and_eq_true, decide_eq_true_eq, decide_eq_true_eq] at hb
      exact eq_of_brackets hb.1 hb.2
    · exact .inl rfl
  · rintro ⟨t, ht, h⟩
    rwa [h.bare_eq ht]

end Klick.Net
