-- The expander of `ssrf.ts` against the platform: each text that the platform reads as an
-- IPv6 address is expanded to the groups that the platform reads, so that exactly the
-- addresses of the public network pass.
import Klick.TargetAddress

open Js Klick.Net

namespace Klick.QuickCheck

/-! ## Pieces between colons -/

/-- Pieces that a colon neither stands in nor is missing between. -/
def Tidy (ps : List Text) : Prop := ∀ p ∈ ps, p ≠ [] ∧ ch ':' ∉ p

theorem splitDouble_cons {a : UInt16} (ha : a ≠ ch ':') (piece t : Text) :
    splitDouble piece (a :: t) = splitDouble (piece ++ [a]) t := by
  cases t with
  | nil => simp [splitDouble]
  | cons b t => simp [splitDouble, ha]

theorem splitDouble_append {p : Text} (hp : ch ':' ∉ p) (piece t : Text) :
    splitDouble piece (p ++ t) = splitDouble (piece ++ p) t := by
  induction p generalizing piece with
  | nil => simp
  | cons a p ih =>
    rw [List.cons_append, splitDouble_cons (fun ha => hp (by simp [ha])),
      ih (fun h => hp (List.mem_cons_of_mem _ h)), List.append_assoc]
    rfl

/-- A single colon does not split. -/
theorem splitDouble_colon {q : Text} (hne : q ≠ []) (hq : ch ':' ∉ q) (piece t : Text) :
    splitDouble piece (ch ':' :: (q ++ t)) = splitDouble (piece ++ [ch ':']) (q ++ t) := by
  cases q with
  | nil => exact absurd rfl hne
  | cons c q =>
    have hc : c ≠ ch ':' := fun h => hq (by simp [h])
    simp [splitDouble, hc]

/-- Tidy pieces in a row are not split. -/
theorem splitDouble_join {ps : List Text} (h : Tidy ps) (piece t : Text) :
    splitDouble piece (join (ch ':') ps ++ t) = splitDouble (piece ++ join (ch ':') ps) t := by
  induction ps generalizing piece with
  | nil => simp
  | cons p ps ih =>
    have hp := (h p List.mem_cons_self).2
    have hrest : Tidy ps := fun q hq => h q (List.mem_cons_of_mem _ hq)
    cases ps with
    | nil => rw [join_singleton, splitDouble_append hp]
    | cons q ps =>
      have hjoin : ∃ r, join (ch ':') (q :: ps) ++ t = q ++ r := by
        cases ps with
        | nil => exact ⟨t, by rw [join_singleton]⟩
        | cons p' ps => exact ⟨ch ':' :: join (ch ':') (p' :: ps) ++ t, by rw [join_cons_cons]; simp⟩
      obtain ⟨r, hr⟩ := hjoin
      have hq := hrest q List.mem_cons_self
      rw [join_cons_cons, List.append_assoc, splitDouble_append hp, List.cons_append, hr,
        splitDouble_colon hq.1 hq.2, ← hr, ih hrest]
      simp

theorem splitDouble_one {ps : List Text} (h : Tidy ps) :
    splitDouble [] (join (ch ':') ps) = [join (ch ':') ps] := by
  have hsplit := splitDouble_join h [] []
  rw [List.append_nil, List.nil_append] at hsplit
  rw [hsplit]
  rfl

theorem splitDouble_two {ps qs : List Text} (hp : Tidy ps) (hq : Tidy qs) :
    splitDouble [] (join (ch ':') ps ++ (js "::" ++ join (ch ':') qs)) =
      [join (ch ':') ps, join (ch ':') qs] := by
  rw [splitDouble_join hp]
  change splitDouble _ (ch ':' :: ch ':' :: join (ch ':') qs) = _
  rw [splitDouble, if_pos (by simp), splitDouble_one hq]
  rfl

theorem splitDouble_ne_nil (piece t : Text) : splitDouble piece t ≠ [] := by
  fun_induction splitDouble piece t with
  | case1 piece => simp
  | case2 piece a => simp
  | case3 piece a b t hab ih => simp
  | case4 piece a b t hab ih => exact ih

/-- What was split is the text. -/
theorem intercalate_splitDouble (piece t : Text) :
    (js "::").intercalate (splitDouble piece t) = piece ++ t := by
  fun_induction splitDouble piece t with
  | case1 piece => simp
  | case2 piece a => simp
  | case3 piece a b t hab ih =>
    simp only [Bool.and_eq_true, decide_eq_true_eq] at hab
    obtain ⟨rfl, rfl⟩ := hab
    have hne := splitDouble_ne_nil [] t
    cases hs : splitDouble [] t with
    | nil => exact absurd hs hne
    | cons q qs =>
      rw [hs, List.nil_append] at ih
      rw [← ih]
      simp [List.intercalate, List.intersperse]
      rfl
  | case4 piece a b t hab ih => simpa using ih

theorem groups_join {ps : List Text} (h : Tidy ps) : groups (join (ch ':') ps) = ps := by
  cases ps with
  | nil => rfl
  | cons p ps =>
    have hne : join (ch ':') (p :: ps) ≠ [] := by
      cases ps with
      | nil => simpa using (h p List.mem_cons_self).1
      | cons q ps => simp [(h p List.mem_cons_self).1]
    unfold groups
    rw [if_neg hne]
    exact List.splitOn_intercalate _ (fun q hq => (h q hq).2) (List.cons_ne_nil _ _)

theorem join_groups (t : Text) : join (ch ':') (groups t) = t := by
  unfold groups
  split_ifs with ht
  · rw [ht]
    rfl
  · exact join_splitOn _ _

/-! ## Hexadecimal groups -/

theorem hexValue_lt {u : UInt16} {d : ℕ} (h : hexValue u = some d) : d < 16 := by
  unfold hexValue at h
  split_ifs at h with h1 h2 h3
  · simp only [isDigit, Bool.and_eq_true, decide_eq_true_eq] at h1
    cases h
    omega
  · simp only [Bool.and_eq_true, decide_eq_true_eq] at h2
    cases h
    omega
  · simp only [Bool.and_eq_true, decide_eq_true_eq] at h3
    cases h
    omega

theorem hexValue_lowerUnit (u : UInt16) : hexValue (lowerUnit u) = hexValue u := by
  rcases lowerUnit_cases u with ⟨hnat, hlo, hhi⟩ | ⟨heq, -⟩
  · unfold hexValue isDigit
    rw [hnat]
    grind
  · rw [heq]

theorem hexNumber_append (s t : Text) :
    hexNumber (s ++ t) = t.foldl (fun n u => n * 16 + (hexValue u).getD 0) (hexNumber s) := by
  unfold hexNumber
  rw [List.foldl_append]

theorem hexNumber_lower (g : Text) : hexNumber (lowerAscii g) = hexNumber g := by
  unfold hexNumber lowerAscii
  rw [List.foldl_map]
  simp only [hexValue_lowerUnit]

theorem hexNumber_concat (g : Text) (u : UInt16) :
    hexNumber (g ++ [u]) = hexNumber g * 16 + (hexValue u).getD 0 := hexNumber_append g [u]

theorem hexNumber_lt (g : Text) : hexNumber g < 16 ^ g.length := by
  induction g using List.reverseRecOn with
  | nil => simp [hexNumber]
  | append_singleton g u ih =>
    have hu : (hexValue u).getD 0 < 16 := by
      cases hv : hexValue u with
      | none => simp
      | some d => exact hexValue_lt hv
    rw [hexNumber_concat, List.length_append, List.length_singleton, pow_succ]
    omega

theorem isGroup_iff {g : Text} : isGroup g = true ↔
    g ≠ [] ∧ g.length ≤ 4 ∧ ∀ u ∈ g, (hexValue u).isSome = true := by
  simp [isGroup, and_assoc]

theorem isGroup_lower {g : Text} (h : isGroup g = true) : isGroup (lowerAscii g) = true := by
  obtain ⟨hne, hlen, hhex⟩ := isGroup_iff.1 h
  refine isGroup_iff.2 ⟨by simpa [lowerAscii] using hne, by simpa [lowerAscii] using hlen, ?_⟩
  intro u hu
  obtain ⟨v, hv, rfl⟩ := List.mem_map.mp hu
  rw [hexValue_lowerUnit]
  exact hhex v hv

/-- A sign that is no hexadecimal digit is in no group. -/
theorem not_mem_group {g : Text} (h : isGroup g = true) {u : UInt16} (hu : hexValue u = none) :
    u ∉ g := by
  intro hmem
  have := (isGroup_iff.1 h).2.2 u hmem
  rw [hu] at this
  cases this

theorem tidy_groups {ps : List Text} (h : ∀ p ∈ ps, isGroup p = true) : Tidy ps := fun p hp =>
  ⟨(isGroup_iff.1 (h p hp)).1, not_mem_group (h p hp) (by decide)⟩

theorem hexNumber_group_lt {g : Text} (h : isGroup g = true) : hexNumber g < 65536 := by
  have hlt := hexNumber_lt g
  have hpow : 16 ^ g.length ≤ 16 ^ 4 := Nat.pow_le_pow_right (by omega) (isGroup_iff.1 h).2.1
  omega

theorem hexValue_not_blank {u : UInt16} (h : (hexValue u).isSome = true) : isTrimmed u = false := by
  unfold hexValue isDigit at h
  apply isTrimmed_visible
  · grind
  · grind

/-- `parseInt` reads a group as it is. -/
theorem parseInt16_group {g : Text} (h : isGroup g = true) : parseInt16 g = some (hexNumber g : ℤ) := by
  obtain ⟨hne, -, hhex⟩ := isGroup_iff.1 h
  have hfront : g.dropWhile isTrimmed = g := by
    rw [List.dropWhile_eq_self_iff]
    intro hl htrim
    rw [hexValue_not_blank (hhex _ (List.getElem_mem hl))] at htrim
    cases htrim
  have hsign : ∀ u, hexValue u = none → g.head? ≠ some u := fun u hu hhead =>
    not_mem_group h hu (List.mem_of_head? hhead)
  have hall : g.takeWhile (fun u => (hexValue u).isSome) = g := List.takeWhile_eq_self_iff.mpr hhex
  have hradix : lowerAscii (g.take 2) ≠ js "0x" := by
    intro heq
    have hx : ch 'x' ∈ lowerAscii (g.take 2) := by
      rw [heq]
      decide
    obtain ⟨v, hv, hlow⟩ := List.mem_map.mp hx
    have hnone : hexValue v = none := by
      rw [← hexValue_lowerUnit, hlow]
      decide
    exact not_mem_group h hnone (List.mem_of_mem_take hv)
  simp [parseInt16, hfront, hsign _ (show hexValue (ch '-') = none by decide),
    hsign _ (show hexValue (ch '+') = none by decide), hradix, hall, hne]

theorem hexNumber_digits {ds : List ℕ} (h : ∀ d ∈ ds, d < 16) :
    hexNumber (ds.reverse.map hexUnit) = Nat.ofDigits 16 ds := by
  induction ds with
  | nil => rfl
  | cons d ds ih =>
    rw [List.reverse_cons, List.map_append, List.map_singleton, hexNumber_concat,
      ih fun e he => h e (List.mem_cons_of_mem _ he),
      hexValue_hexUnit d (h d List.mem_cons_self), Nat.ofDigits_cons]
    simp only [Option.getD_some]
    omega

theorem digits_hex {n d : ℕ} (h : d ∈ Nat.digits 16 n) : d < 16 := Nat.digits_lt_base (by omega) h

theorem hexNumber_hexText (n : ℕ) : hexNumber (hexText n) = n := by
  unfold hexText
  split_ifs with hn
  · rw [hn]
    decide
  · rw [hexNumber_digits fun d hd => digits_hex hd, Nat.ofDigits_digits]

theorem isGroup_hexText {n : ℕ} (h : n < 65536) : isGroup (hexText n) = true := by
  unfold hexText
  split_ifs with hn
  · decide
  · refine isGroup_iff.2 ⟨?_, ?_, ?_⟩
    · simpa using Nat.digits_ne_nil_iff_ne_zero.mpr hn
    · rw [List.length_map, List.length_reverse]
      exact (Nat.digits_length_le_iff (by omega) n).mpr (by omega)
    · intro u hu
      obtain ⟨d, hd, rfl⟩ := List.mem_map.mp hu
      rw [hexValue_hexUnit d (digits_hex (List.mem_reverse.mp hd))]
      rfl

/-! ## An IPv4 address at the end -/

/-- Four numbers below 256, as they are written. -/
structure Parts (s : Text) (a b c d : Text) : Prop where
  text : s = join (ch '.') [a, b, c, d]
  digits : ∀ p ∈ [a, b, c, d], p ≠ [] ∧ ∀ u ∈ p, isDigit u = true
  small : ∀ p ∈ [a, b, c, d], natOf p ≤ 255

theorem parts_of_parseV4 {s : Text} {v : ℕ} (h : parseV4 s = some v) :
    ∃ a b c d, s.splitOn (ch '.') = [a, b, c, d] ∧ Parts s a b c d ∧
      v = quad (natOf a) (natOf b) (natOf c) (natOf d) := by
  unfold parseV4 at h
  simp only [Option.ite_none_right_eq_some, Option.some.injEq, Bool.and_eq_true,
    decide_eq_true_eq, List.all_eq_true, Bool.or_eq_true] at h
  obtain ⟨⟨hlen, hparts⟩, hv⟩ := h
  have hjoin := join_splitOn (ch '.') s
  generalize s.splitOn (ch '.') = parts at hlen hparts hv hjoin
  match parts, hlen with
  | [a, b, c, d], _ =>
    refine ⟨a, b, c, d, rfl, ⟨hjoin.symm, ?_, fun p hp => (hparts p hp).2⟩, ?_⟩
    · intro p hp
      rcases (hparts p hp).1 with rfl | hpos
      · refine ⟨List.cons_ne_nil _ _, fun u hu => ?_⟩
        rw [List.mem_singleton.mp hu]
        decide
      · obtain ⟨⟨u, r, hur, -⟩, hdigits, -⟩ := isPosDigits_iff.mp hpos
        exact ⟨by simp [hur], hdigits⟩
    · rw [← hv]
      simp [quad]

theorem Parts.signs {s a b c d : Text} (h : Parts s a b c d) {u : UInt16} (hu : u ∈ s) :
    u = ch '.' ∨ isDigit u = true := by
  rw [h.text] at hu
  rcases mem_join hu with hdot | ⟨p, hp, hup⟩
  · exact .inl hdot
  · exact .inr ((h.digits p hp).2 u hup)

theorem Parts.no_colon {s a b c d : Text} (h : Parts s a b c d) : ch ':' ∉ s := fun hu => by
  rcases h.signs hu with h | h <;> exact absurd h (by decide)

theorem Parts.dot_mem {s a b c d : Text} (h : Parts s a b c d) : ch '.' ∈ s := by
  rw [h.text]
  simp

/-- What is in no digits and no dots is in no dotted text. -/
theorem isDotted_false {t : Text} (h : ch ':' ∈ t) : isDotted t = false := by
  by_contra hne
  rw [Bool.not_eq_false, isDotted, Bool.and_eq_true, List.all_eq_true] at hne
  rw [← join_splitOn (ch '.') t] at h
  rcases mem_join h with hdot | ⟨p, hp, hu⟩
  · exact absurd hdot (by decide)
  · have hdigits := hne.2 p hp
    simp only [Bool.and_eq_true, decide_eq_true_eq, List.all_eq_true] at hdigits
    exact absurd (hdigits.2 _ hu) (by decide)

theorem isDotted_dot {t : Text} (h : isDotted t = true) : ch '.' ∈ t := by
  rw [isDotted, Bool.and_eq_true, decide_eq_true_eq] at h
  rw [← join_splitOn (ch '.') t]
  match t.splitOn (ch '.'), h.1 with
  | [a, b, c, d], _ => simp

/-- A text without dots is left as it is. -/
theorem expandTail_plain {s : Text} (h : ch '.' ∉ s) : expandTail s = some s := by
  have hnone : dottedTail s = none := by
    unfold dottedTail
    rw [List.find?_eq_none]
    intro t ht hdotted
    exact h ((List.mem_tails _ _ |>.mp ht).subset (isDotted_dot hdotted))
  unfold expandTail
  rw [hnone]

/-- The front of an address, before its last piece. -/
structure Front (w : Text) : Prop where
  dots : ch '.' ∉ w
  colon : ∀ v, v <:+ w → v ≠ [] → ch ':' ∈ v

theorem Front.tail {u : UInt16} {w : Text} (h : Front (u :: w)) : Front w where
  dots hdot := h.dots (List.mem_cons_of_mem _ hdot)
  colon v hv := h.colon v (hv.trans (List.suffix_cons u w))

theorem dottedTail_append {w s : Text} (hw : Front w) (hs : isDotted s = true) :
    dottedTail (w ++ s) = some s := by
  induction w with
  | nil =>
    cases s with
    | nil => cases hs
    | cons u s => simp [dottedTail, hs]
  | cons u w ih =>
    have hcolon : ch ':' ∈ (u :: w) ++ s :=
      List.mem_append_left _ (hw.colon _ (List.suffix_refl _) (List.cons_ne_nil _ _))
    have hfirst := isDotted_false hcolon
    rw [List.cons_append] at hfirst ⊢
    unfold dottedTail at ih ⊢
    rw [List.tails_cons, List.find?_cons_of_neg (by simp [hfirst]), ih hw.tail]

theorem replaceFirst_append {w s : Text} (by_ : Text) (hw : Front w) (hdot : ch '.' ∈ s)
    (hcolon : ch ':' ∉ s) : replaceFirst s by_ (w ++ s) = w ++ by_ := by
  induction w with
  | nil =>
    cases s with
    | nil => cases hdot
    | cons u s => simp [replaceFirst]
  | cons u w ih =>
    have hnot : s.isPrefixOf ((u :: w) ++ s) = false := by
      by_contra hne
      rw [Bool.not_eq_false, List.isPrefixOf_iff_prefix] at hne
      rcases List.prefix_or_prefix_of_prefix hne (List.prefix_append (u :: w) s) with hp | hp
      · exact hw.dots (hp.subset hdot)
      · exact hcolon (hp.subset (hw.colon _ (List.suffix_refl _) (List.cons_ne_nil _ _)))
    rw [List.cons_append] at hnot ⊢
    rw [replaceFirst, hnot, if_neg (by simp), ih hw.tail, List.cons_append]

theorem quad_halves {a b c d : ℕ} (hc : c ≤ 255) (hd : d ≤ 255) :
    quad a b c d / 65536 = a * 256 + b ∧ quad a b c d % 65536 = c * 256 + d := by
  have hquad : quad a b c d = (c * 256 + d) + 65536 * (a * 256 + b) := by
    unfold quad
    ring
  have hlt : c * 256 + d < 65536 := by linarith
  rw [hquad]
  constructor
  · rw [Nat.add_mul_div_left _ _ (by norm_num), Nat.div_eq_of_lt hlt, Nat.zero_add]
  · rw [Nat.add_mul_mod_self_left, Nat.mod_eq_of_lt hlt]

/-- **An IPv4 address at the end becomes two groups.** -/
theorem expandTail_dotted {w s : Text} {v : ℕ} (hw : Front w) (h : parseV4 s = some v) :
    expandTail (w ++ s) =
      some (w ++ join (ch ':') [hexText (v / 65536), hexText (v % 65536)]) := by
  obtain ⟨a, b, c, d, hsplit, hparts, hv⟩ := parts_of_parseV4 h
  have hdotted : isDotted s = true := by
    unfold isDotted
    rw [hsplit]
    have hall : ∀ p ∈ [a, b, c, d], (decide (p ≠ []) && p.all isDigit) = true := by
      intro p hp
      rw [Bool.and_eq_true, decide_eq_true_eq, List.all_eq_true]
      exact hparts.digits p hp
    exact List.all_eq_true.mpr hall
  have hsmall := hparts.small
  simp only [List.mem_cons, List.not_mem_nil, or_false, forall_eq_or_imp, forall_eq] at hsmall
  unfold expandTail
  rw [dottedTail_append hw hdotted]
  dsimp only
  rw [hsplit, if_neg (by simp; omega), replaceFirst_append _ hw hparts.dot_mem hparts.no_colon]
  obtain ⟨hhi, hlo⟩ := quad_halves hsmall.2.2.1 hsmall.2.2.2 (a := natOf a) (b := natOf b)
  rw [← hv] at hhi hlo
  simp [hhi, hlo]

/-! ## The pieces of an address -/

theorem readGroups_spec {last : Bool} {ps : List Text} {gs : List ℕ}
    (h : readGroups last ps = some gs) :
    ((∀ p ∈ ps, isGroup p = true) ∧ gs = ps.map hexNumber) ∨
      (last = true ∧ ∃ qs s v, ps = qs ++ [s] ∧ (∀ p ∈ qs, isGroup p = true) ∧
        parseV4 s = some v ∧ gs = qs.map hexNumber ++ [v / 65536, v % 65536]) := by
  fun_induction readGroups last ps generalizing gs with
  | case1 => simp_all
  | case2 p hp =>
    obtain ⟨v, hv, rfl⟩ := Option.map_eq_some_iff.mp h
    rw [Bool.and_eq_true] at hp
    exact .inr ⟨hp.1, [], p, v, rfl, by simp, hv, rfl⟩
  | case3 p _ hp =>
    cases h
    exact .inl ⟨by simpa using hp, rfl⟩
  | case4 => cases h
  | case5 p q ps hp ih =>
    obtain ⟨rest, hrest, rfl⟩ := Option.map_eq_some_iff.mp h
    rcases ih hrest with ⟨hall, rfl⟩ | ⟨hlast, qs, s, v, heq, hall, hv, rfl⟩
    · exact .inl ⟨List.forall_mem_cons.mpr ⟨hp, hall⟩, rfl⟩
    · refine .inr ⟨hlast, p :: qs, s, v, by rw [heq]; rfl, ?_, hv, rfl⟩
      exact List.forall_mem_cons.mpr ⟨hp, hall⟩
  | case6 => cases h

theorem join_append (sep : UInt16) (qs : List Text) {rs : List Text} (hrs : rs ≠ []) :
    join sep (qs ++ rs) = qs.flatMap (· ++ [sep]) ++ join sep rs := by
  induction qs with
  | nil => rfl
  | cons q qs ih =>
    have hne : qs ++ rs ≠ [] := by simp [hrs]
    obtain ⟨r, rest, hr⟩ := List.exists_cons_of_ne_nil hne
    rw [List.cons_append, hr, join_cons_cons, ← hr, ih]
    simp

theorem Front.nil : Front [] := ⟨by simp, fun v hv hne => absurd (List.suffix_nil.mp hv) hne⟩

theorem Front.append {w q : Text} (hw : ch '.' ∉ w) (hq : ch '.' ∉ q) :
    Front (w ++ (q ++ [ch ':'])) where
  dots hdot := by
    simp only [List.mem_append, List.mem_singleton] at hdot
    rcases hdot with h | h | h
    · exact hw h
    · exact hq h
    · exact absurd h (by decide)
  colon v hv hne := by
    rw [← List.append_assoc, List.suffix_concat_iff] at hv
    rcases hv with rfl | ⟨t, rfl, -⟩
    · exact absurd rfl hne
    · simp

theorem Front.pieces {w : Text} (hw : Front w) {qs : List Text} (hqs : ∀ q ∈ qs, ch '.' ∉ q) :
    Front (w ++ qs.flatMap (· ++ [ch ':'])) := by
  induction qs generalizing w with
  | nil => simpa using hw
  | cons q qs ih =>
    rw [List.flatMap_cons, ← List.append_assoc]
    exact ih (Front.append hw.dots (hqs q List.mem_cons_self))
      fun r hr => hqs r (List.mem_cons_of_mem _ hr)

theorem lowerAscii_join (ps : List Text) :
    lowerAscii (join (ch ':') ps) = join (ch ':') (ps.map lowerAscii) := by
  induction ps with
  | nil => rfl
  | cons p ps ih =>
    cases ps with
    | nil => simp
    | cons q ps =>
      rw [List.map_cons, join_cons_cons, List.map_cons, join_cons_cons, ← List.map_cons, ← ih]
      unfold lowerAscii
      rw [List.map_append, List.map_cons]
      congr 2

theorem lowerAscii_v4 {s : Text} {v : ℕ} (h : parseV4 s = some v) : lowerAscii s = s := by
  obtain ⟨a, b, c, d, -, hparts, -⟩ := parts_of_parseV4 h
  have hsame : ∀ u ∈ s, lowerUnit u = u := by
    intro u hu
    rcases lowerUnit_cases u with ⟨-, hlo, hhi⟩ | ⟨heq, -⟩
    · rcases hparts.signs hu with rfl | hdigit
      · exact absurd hlo (by decide)
      · simp only [isDigit, Bool.and_eq_true, decide_eq_true_eq] at hdigit
        omega
    · exact heq
  exact (List.map_congr_left hsame).trans (List.map_id s)

theorem parseV4_lt {s : Text} {v : ℕ} (h : parseV4 s = some v) : v < 2 ^ 32 := by
  obtain ⟨a, b, c, d, -, hparts, rfl⟩ := parts_of_parseV4 h
  have hsmall := hparts.small
  simp only [List.mem_cons, List.not_mem_nil, or_false, forall_eq_or_imp, forall_eq] at hsmall
  obtain ⟨ha, hb, hc, hd⟩ := hsmall
  unfold quad
  linarith

/-- **The last part of an address becomes groups only**, with the numbers that are read. -/
theorem expandTail_part {w : Text} (hw : Front w) {ps : List Text} {gs : List ℕ}
    (h : readGroups true ps = some gs) :
    ∃ qs, expandTail (w ++ join (ch ':') (ps.map lowerAscii)) = some (w ++ join (ch ':') qs) ∧
      (∀ q ∈ qs, isGroup q = true) ∧ qs.map hexNumber = gs := by
  have hlower : ∀ ps : List Text, (∀ p ∈ ps, isGroup p = true) →
      ∀ q ∈ ps.map lowerAscii, isGroup q = true := by
    intro ps hps q hq
    obtain ⟨p, hp, rfl⟩ := List.mem_map.mp hq
    exact isGroup_lower (hps p hp)
  have hnumbers : ∀ ps : List Text, (ps.map lowerAscii).map hexNumber = ps.map hexNumber := by
    intro ps
    rw [List.map_map]
    exact List.map_congr_left fun p _ => hexNumber_lower p
  have hdots : ∀ q, isGroup q = true → ch '.' ∉ q := fun q hq => not_mem_group hq (by decide)
  rcases readGroups_spec h with ⟨hall, rfl⟩ | ⟨-, rs, s, v, rfl, hall, hv, rfl⟩
  · refine ⟨ps.map lowerAscii, expandTail_plain ?_, hlower ps hall, hnumbers ps⟩
    intro hdot
    rcases List.mem_append.mp hdot with hdot | hdot
    · exact hw.dots hdot
    · rcases mem_join hdot with hcolon | ⟨q, hq, hdot⟩
      · exact absurd hcolon (by decide)
      · exact hdots q (hlower ps hall q hq) hdot
  · refine ⟨rs.map lowerAscii ++ [hexText (v / 65536), hexText (v % 65536)], ?_, ?_, ?_⟩
    · have hfront := hw.pieces fun q hq => hdots q (hlower rs hall q hq)
      rw [List.map_append, List.map_singleton, lowerAscii_v4 hv,
        join_append _ _ (List.cons_ne_nil _ _), join_append _ _ (List.cons_ne_nil _ _),
        join_singleton, ← List.append_assoc, ← List.append_assoc]
      exact expandTail_dotted hfront hv
    · have hv := parseV4_lt hv
      intro q hq
      rcases List.mem_append.mp hq with hq | hq
      · exact hlower rs hall q hq
      · simp only [List.mem_cons, List.not_mem_nil, or_false] at hq
        rcases hq with rfl | rfl
        · exact isGroup_hexText (Nat.div_lt_of_lt_mul (by simpa using hv))
        · exact isGroup_hexText (Nat.mod_lt _ (by norm_num))
    · rw [List.map_append, hnumbers]
      simp [hexNumber_hexText]

/-! ## The whole address -/

/-- Eight groups are read as they are. -/
theorem groupValues_groups {all : List Text} (h : ∀ g ∈ all, isGroup g = true)
    (hlen : all.length = 8) : groupValues all = some (all.map hexNumber) := by
  have hvalues : (all.map fun g => parseInt16 (if g = [] then [ch '0'] else g)) =
      all.map fun g => some (hexNumber g : ℤ) := by
    refine List.map_congr_left fun g hg => ?_
    rw [if_neg (isGroup_iff.1 (h g hg)).1, parseInt16_group (h g hg)]
  unfold groupValues
  dsimp only
  rw [hvalues, if_pos]
  · simp
  · refine ⟨by simpa using hlen, ?_⟩
    intro v hv
    obtain ⟨g, hg, rfl⟩ := List.mem_map.mp hv
    have hlt := hexNumber_group_lt (h g hg)
    exact ⟨_, rfl, by omega, by omega⟩

theorem takeWhile_lower (ip : Text) :
    (lowerAscii ip).takeWhile (· ≠ ch '%') = lowerAscii (ip.takeWhile (· ≠ ch '%')) := by
  have hsign : (fun u => decide (u ≠ ch '%')) ∘ lowerUnit = fun u => decide (u ≠ ch '%') := by
    funext u
    rw [Function.comp_apply, decide_eq_decide, not_iff_not]
    rcases lowerUnit_cases u with ⟨hnat, hlo, hhi⟩ | ⟨heq, -⟩
    · constructor
      · intro h
        rw [h] at hnat
        exact absurd hnat (by have : (ch '%').toNat = 37 := by decide
                              omega)
      · rintro rfl
        exact absurd hlo (by decide)
    · rw [heq]
  unfold lowerAscii
  rw [List.takeWhile_map, hsign]

/-- What was split at its only double colon. -/
theorem eq_of_splitDouble {t h r : Text} (hs : splitDouble [] t = [h, r]) :
    t = h ++ (js "::" ++ r) := by
  have hjoin := intercalate_splitDouble [] t
  rw [hs, List.nil_append] at hjoin
  rw [← hjoin]
  simp [List.intercalate, List.intersperse]

/-- Groups without a double colon. -/
theorem expandV6_one {qs : List Text} (hqs : ∀ q ∈ qs, isGroup q = true) (hlen : qs.length = 8)
    {ip : Text} (h : expandTail ((lowerAscii ip).takeWhile (· ≠ ch '%')) =
      some (join (ch ':') qs)) : expandV6 ip = .ok (some (qs.map hexNumber)) := by
  have htidy := tidy_groups hqs
  unfold expandV6
  rw [h]
  simp only [splitDouble_one htidy, List.getD_cons_zero, groups_join htidy]
  simp [groupValues_groups hqs hlen]

/-- Groups before and after a double colon, which stands for at least one more. -/
theorem expandV6_two {ps qs : List Text} (hps : ∀ p ∈ ps, isGroup p = true)
    (hqs : ∀ q ∈ qs, isGroup q = true) (hlen : ps.length + qs.length ≤ 7) {ip : Text}
    (h : expandTail ((lowerAscii ip).takeWhile (· ≠ ch '%')) =
      some (join (ch ':') ps ++ (js "::" ++ join (ch ':') qs))) :
    expandV6 ip = .ok (some (ps.map hexNumber ++ List.replicate (8 - ps.length - qs.length) 0 ++
      qs.map hexNumber)) := by
  have hall : ∀ g ∈ ps ++ List.replicate (8 - ps.length - qs.length) [ch '0'] ++ qs,
      isGroup g = true := by
    intro g hg
    rcases List.mem_append.mp hg with hg | hg
    · rcases List.mem_append.mp hg with hg | hg
      · exact hps g hg
      · rw [List.eq_of_mem_replicate hg]
        decide
    · exact hqs g hg
  have hcount : (ps ++ List.replicate (8 - ps.length - qs.length) [ch '0'] ++ qs).length = 8 := by
    simp only [List.length_append, List.length_replicate]
    omega
  have hzero : hexNumber [ch '0'] = 0 := by decide
  unfold expandV6
  rw [h]
  simp only [splitDouble_two (tidy_groups hps) (tidy_groups hqs), List.getD_cons_zero,
    groups_join (tidy_groups hps)]
  rw [if_neg]
  · have hvalues := groupValues_groups hall hcount
    rw [List.map_append, List.map_append, List.map_replicate, hzero] at hvalues
    rw [← hvalues]
    simp [groups_join (tidy_groups hqs)]
  · simp [groups_join (tidy_groups hqs)]
    omega

/-- **The program expands what the platform reads, to the same groups.** -/
theorem expandV6_eq {ip : Text} {gs : List ℕ} (h : readV6 ip = some gs) :
    expandV6 ip = .ok (some gs) := by
  unfold readV6 at h
  rw [Option.ite_none_right_eq_some] at h
  obtain ⟨-, h⟩ := h
  have hlower := takeWhile_lower ip
  generalize ip.takeWhile (· ≠ ch '%') = t at h hlower
  split at h
  · rename_i p hsplit
    obtain ⟨hread, hlen⟩ := Option.filter_eq_some_iff.mp h
    have ht : p = t := by
      have hjoin := intercalate_splitDouble [] t
      rw [hsplit] at hjoin
      simpa using hjoin
    obtain ⟨qs, htail, hqs, rfl⟩ := expandTail_part Front.nil hread
    rw [List.nil_append, List.nil_append, ← lowerAscii_join, join_splitOn, ht, ← hlower] at htail
    exact expandV6_one hqs (by simpa using hlen) htail
  · rename_i p r hsplit
    obtain ⟨hs, hhs, h⟩ := Option.bind_eq_some_iff.mp h
    obtain ⟨rs, hrs, h⟩ := Option.bind_eq_some_iff.mp h
    rw [Option.ite_none_right_eq_some] at h
    obtain ⟨hcount, h⟩ := h
    cases h
    -- before the double colon there is no IPv4 address
    obtain ⟨hps, rfl⟩ := (readGroups_spec hhs).resolve_right (fun hlast => nomatch hlast.1)
    have hpieces : ∀ q ∈ (groups p).map lowerAscii, isGroup q = true := by
      intro q hq
      obtain ⟨g, hg, rfl⟩ := List.mem_map.mp hq
      exact isGroup_lower (hps g hg)
    have hdots : ch '.' ∉ join (ch ':') ((groups p).map lowerAscii) ++ [ch ':'] := by
      intro hdot
      rcases List.mem_append.mp hdot with hdot | hdot
      · rcases mem_join hdot with hcolon | ⟨q, hq, hdot⟩
        · exact absurd hcolon (by decide)
        · exact not_mem_group (hpieces q hq) (by decide) hdot
      · exact absurd (List.mem_singleton.mp hdot) (by decide)
    obtain ⟨qs, htail, hqs, rfl⟩ := expandTail_part (Front.append List.not_mem_nil hdots) hrs
    have hcolons : ∀ u v : Text, u ++ (js "::" ++ v) = [] ++ (u ++ [ch ':'] ++ [ch ':']) ++ v := by
      intro u v
      simp only [List.nil_append, List.append_assoc]
      rfl
    have htext : (lowerAscii ip).takeWhile (· ≠ ch '%') =
        join (ch ':') ((groups p).map lowerAscii) ++
          (js "::" ++ join (ch ':') ((groups r).map lowerAscii)) := by
      have hdouble : lowerAscii (js "::") = js "::" := by decide
      rw [hlower, eq_of_splitDouble hsplit, ← lowerAscii_join, ← lowerAscii_join, join_groups,
        join_groups]
      unfold lowerAscii at hdouble ⊢
      rw [List.map_append, List.map_append, hdouble]
    rw [← hcolons, ← hcolons, ← htext] at htail
    simp only [List.length_map] at hcount ⊢
    have hexpand := expandV6_two hpieces hqs (by simpa using hcount) htail
    have hnumbers : ((groups p).map lowerAscii).map hexNumber = (groups p).map hexNumber := by
      rw [List.map_map]
      exact List.map_congr_left fun g _ => hexNumber_lower g
    rw [hexpand, List.length_map, hnumbers]
  · cases h

/-- Eight groups of 16 bits. -/
def IsGroups (gs : List ℕ) : Prop := gs.length = 8 ∧ ∀ g ∈ gs, g < 65536

theorem IsGroups.eight {gs : List ℕ} (h : IsGroups gs) :
    ∃ g0 g1 g2 g3 g4 g5 g6 g7, gs = [g0, g1, g2, g3, g4, g5, g6, g7] := by
  match gs, h.1 with
  | [g0, g1, g2, g3, g4, g5, g6, g7], _ => exact ⟨g0, g1, g2, g3, g4, g5, g6, g7, rfl⟩

theorem isGroups_of_expandV6 {ip : Text} {gs : List ℕ} (h : expandV6 ip = .ok (some gs)) :
    IsGroups gs := by
  have hvalues : ∃ all, groupValues all = some gs := by
    unfold expandV6 at h
    split at h
    · cases h
    · dsimp only at h
      split_ifs at h
      · exact ⟨_, Except.ok.inj h⟩
      · exact ⟨_, Except.ok.inj h⟩
  obtain ⟨all, hall⟩ := hvalues
  unfold groupValues at hall
  rw [Option.ite_none_right_eq_some] at hall
  obtain ⟨⟨hlen, hbound⟩, hall⟩ := hall
  cases hall
  refine ⟨by simpa using hlen, ?_⟩
  intro g hg
  obtain ⟨v, hv, rfl⟩ := List.mem_map.mp hg
  obtain ⟨n, hn, hlo, hhi⟩ := hbound v hv
  rw [Option.mem_def] at hn
  rw [hn, Option.getD_some]
  omega

/-! ## Numbers of groups -/

theorem number_cons (g : ℕ) (gs : List ℕ) : number (g :: gs) = g * 65536 ^ gs.length + number gs := by
  have hfold : ∀ (gs : List ℕ) (v : ℕ), gs.foldl (fun v g => v * 65536 + g) v =
      v * 65536 ^ gs.length + number gs := by
    intro gs
    induction gs with
    | nil => simp [number]
    | cons a gs ih =>
      intro v
      unfold number
      rw [List.foldl_cons, List.foldl_cons, ih, ih, List.length_cons, pow_succ]
      ring
  unfold number
  rw [List.foldl_cons, hfold]
  simp [number]

theorem number_lt {gs : List ℕ} (h : ∀ g ∈ gs, g < 65536) : number gs < 65536 ^ gs.length := by
  induction gs with
  | nil => simp [number]
  | cons g gs ih =>
    have hg := h g List.mem_cons_self
    have hrest := ih fun a ha => h a (List.mem_cons_of_mem _ ha)
    rw [number_cons, List.length_cons, pow_succ]
    nlinarith

theorem number_append (as bs : List ℕ) :
    number (as ++ bs) = number as * 65536 ^ bs.length + number bs := by
  induction as with
  | nil => simp [number]
  | cons a as ih =>
    rw [List.cons_append, number_cons, number_cons, ih, List.length_append, pow_add]
    ring

theorem number_div (as : List ℕ) {bs : List ℕ} (h : ∀ b ∈ bs, b < 65536) :
    number (as ++ bs) / 65536 ^ bs.length = number as := by
  rw [number_append, Nat.mul_comm, Nat.mul_add_div (by positivity), Nat.div_eq_of_lt (number_lt h),
    Nat.add_zero]

theorem number_mod (as : List ℕ) {bs : List ℕ} (h : ∀ b ∈ bs, b < 65536) :
    number (as ++ bs) % 65536 ^ bs.length = number bs := by
  rw [number_append, Nat.mul_comm, Nat.mul_add_mod, Nat.mod_eq_of_lt (number_lt h)]

theorem mul_add_cancel {a b m n k : ℕ} (hm : m < k) (hn : n < k) (h : a * k + m = b * k + n) :
    a = b ∧ m = n := by
  have hdiv : ∀ x y, y < k → (x * k + y) / k = x := by
    intro x y hy
    rw [Nat.mul_comm, Nat.mul_add_div (by omega), Nat.div_eq_of_lt hy, Nat.add_zero]
  have hab : a = b := by rw [← hdiv a m hm, h, hdiv b n hn]
  subst hab
  exact ⟨rfl, Nat.add_left_cancel h⟩

theorem number_injective {as bs : List ℕ} (hlen : as.length = bs.length)
    (ha : ∀ a ∈ as, a < 65536) (hb : ∀ b ∈ bs, b < 65536) (h : number as = number bs) : as = bs := by
  induction as generalizing bs with
  | nil => exact (List.length_eq_zero_iff.mp hlen.symm).symm
  | cons a as ih =>
    cases bs with
    | nil => cases hlen
    | cons b bs =>
      have hlen := Nat.succ.inj hlen
      have hrest : ∀ x ∈ as, x < 65536 := fun x hx => ha x (List.mem_cons_of_mem _ hx)
      have hrest' : ∀ x ∈ bs, x < 65536 := fun x hx => hb x (List.mem_cons_of_mem _ hx)
      rw [number_cons, number_cons, hlen] at h
      have hlt := number_lt hrest
      rw [hlen] at hlt
      obtain ⟨hhead, htail⟩ := mul_add_cancel hlt (number_lt hrest') h
      rw [hhead, ih hlen hrest hrest' htail]

/-- The first groups of an address are those of a network. -/
theorem number_eq_iff {as bs : List ℕ} (hlen : as.length = bs.length) (ha : ∀ a ∈ as, a < 65536)
    (hb : ∀ b ∈ bs, b < 65536) : number as = number bs ↔ as = bs :=
  ⟨number_injective hlen ha hb, fun h => h ▸ rfl⟩

/-! ## IPv4 addresses in IPv6 addresses -/

theorem parseV4_v4From {hi lo : ℕ} (hhi : hi < 65536) (hlo : lo < 65536) :
    parseV4 (v4From hi lo) = some (hi * 65536 + lo) := by
  have hdot : ∀ n, ch '.' ∉ decimal n := fun n hmem =>
    absurd (decimal_digits n _ hmem) (by decide)
  have hsplit : (v4From hi lo).splitOn (ch '.') =
      [hi / 256, hi % 256, lo / 256, lo % 256].map decimal := by
    apply List.splitOn_intercalate
    · intro t ht
      obtain ⟨n, -, rfl⟩ := List.mem_map.mp ht
      exact hdot n
    · simp
  have hpart : ∀ n, n ≤ 255 → (decimal n = [ch '0'] ∨ isPosDigits 1 3 (decimal n) = true) := by
    intro n hn
    rcases Nat.eq_zero_or_pos n with rfl | hpos
    · exact .inl rfl
    · exact .inr (isPosDigits_decimal hpos (List.length_pos_iff.mpr (decimal_ne_nil n))
        ((decimal_length_le (by omega)).mpr (by omega)))
  have hbytes : ∀ n ∈ [hi / 256, hi % 256, lo / 256, lo % 256], n ≤ 255 := by
    intro n hn
    simp only [List.mem_cons, List.not_mem_nil, or_false] at hn
    omega
  unfold parseV4
  rw [hsplit, if_pos]
  · simp only [List.map_cons, List.map_nil, List.foldl_cons, List.foldl_nil, natOf_decimal,
      Option.some.injEq]
    omega
  · rw [Bool.and_eq_true, List.all_eq_true]
    refine ⟨by simp, ?_⟩
    intro p hp
    obtain ⟨n, hn, rfl⟩ := List.mem_map.mp hp
    have hsmall := hbytes n hn
    simp only [Bool.and_eq_true, Bool.or_eq_true, decide_eq_true_eq, natOf_decimal]
    exact ⟨hpart n hsmall, hsmall⟩

/-- What the groups of an address hold. -/
theorem embeds_iff {g0 g1 g2 g3 g4 g5 g6 g7 : ℕ} (h : IsGroups [g0, g1, g2, g3, g4, g5, g6, g7])
    (v : ℕ) : Embeds [g0, g1, g2, g3, g4, g5, g6, g7] v ↔
      ((g0 = 0 ∧ g1 = 0 ∧ g2 = 0 ∧ g3 = 0 ∧ g4 = 0 ∧ (g5 = 0xffff ∨ g5 = 0) ∨
          g0 = 0x64 ∧ g1 = 0xff9b ∧ g2 = 0 ∧ g3 = 0 ∧ g4 = 0 ∧ g5 = 0) ∧ v = g6 * 65536 + g7) ∨
        (g0 = 0x2002 ∧ v = g1 * 65536 + g2) := by
  obtain ⟨-, hlt⟩ := h
  simp only [List.forall_mem_cons] at hlt
  obtain ⟨h0, h1, h2, h3, h4, h5, h6, h7, hnil⟩ := hlt
  have hlow : ∀ b ∈ [g6, g7], b < 65536 := by simp [h6, h7]
  have hall : ∀ b ∈ [g1, g2, g3, g4, g5, g6, g7], b < 65536 := by simp [h1, h2, h3, h4, h5, h6, h7]
  have hrest : ∀ b ∈ [g3, g4, g5, g6, g7], b < 65536 := by simp [h3, h4, h5, h6, h7]
  have hmid : ∀ b ∈ [g1, g2], b < 65536 := by simp [h1, h2]
  have hhigh : ∀ b ∈ [g0, g1, g2, g3, g4, g5], b < 65536 := by simp [h0, h1, h2, h3, h4, h5]
  have hbits : ∀ k, 2 ^ (16 * k) = 65536 ^ k := fun k => by
    rw [pow_mul]
    norm_num
  have hfront : number [g0, g1, g2, g3, g4, g5, g6, g7] / 2 ^ 32 =
      number [g0, g1, g2, g3, g4, g5] := by
    rw [hbits 2]
    exact number_div [g0, g1, g2, g3, g4, g5] hlow
  have hend : number [g0, g1, g2, g3, g4, g5, g6, g7] % 2 ^ 32 = number [g6, g7] := by
    rw [hbits 2]
    exact number_mod [g0, g1, g2, g3, g4, g5] hlow
  have hfirst : number [g0, g1, g2, g3, g4, g5, g6, g7] / 2 ^ 112 = number [g0] := by
    rw [hbits 7]
    exact number_div [g0] hall
  have hmiddle : number [g0, g1, g2, g3, g4, g5, g6, g7] / 2 ^ 80 % 2 ^ 32 = number [g1, g2] := by
    have hdiv : number [g0, g1, g2, g3, g4, g5, g6, g7] / 65536 ^ 5 = number [g0, g1, g2] :=
      number_div [g0, g1, g2] hrest
    rw [hbits 5, hbits 2, hdiv]
    exact number_mod [g0] hmid
  have hnet : ∀ bs : List ℕ, bs.length = 6 → (∀ b ∈ bs, b < 65536) →
      (number [g0, g1, g2, g3, g4, g5] = number bs ↔ [g0, g1, g2, g3, g4, g5] = bs) :=
    fun bs hlen hb => number_eq_iff hlen.symm hhigh hb
  have hmapped := hnet [0, 0, 0, 0, 0, 0xffff] rfl (by simp)
  have hcompatible := hnet [0, 0, 0, 0, 0, 0] rfl (by simp)
  have hffff : number [0, 0, 0, 0, 0, 0xffff] = 0xffff := by simp [number]
  have hzero : number [0, 0, 0, 0, 0, 0] = 0 := by simp [number]
  rw [hffff] at hmapped
  rw [hzero] at hcompatible
  have hnat64 := hnet [0x64, 0xff9b, 0, 0, 0, 0] rfl (by simp)
  have hone : number [g0] = g0 := by simp [number]
  have htwo : ∀ a b, number [a, b] = a * 65536 + b := by simp [number]
  unfold Embeds
  rw [hfront, hend, hfirst, hmiddle, hmapped, hcompatible, hnat64, hone, htwo, htwo]
  simp only [List.cons.injEq, and_true, and_or_left, or_assoc]

/-- **What the program finds in an address is what the address holds.** -/
theorem embeddedV4_spec {ip : Text} {gs : List ℕ} (h : readV6 ip = some gs) :
    (embeddedV4 ip = .ok none ∧ ∀ v, ¬ Embeds gs v) ∨
      ∃ t v, embeddedV4 ip = .ok (some t) ∧ parseV4 t = some v ∧ ∀ v', Embeds gs v' ↔ v' = v := by
  have hexpand := expandV6_eq h
  have hgroups := isGroups_of_expandV6 hexpand
  obtain ⟨g0, g1, g2, g3, g4, g5, g6, g7, rfl⟩ := hgroups.eight
  have hlt := hgroups.2
  simp only [List.forall_mem_cons] at hlt
  obtain ⟨h0, h1, h2, h3, h4, h5, h6, h7, -⟩ := hlt
  have hembeds := embeds_iff hgroups
  unfold embeddedV4
  rw [hexpand]
  simp only [Except.map]
  split_ifs with hmapped hnat64 hsix
  · refine .inr ⟨_, _, rfl, parseV4_v4From h6 h7, fun v => ?_⟩
    rw [hembeds]
    omega
  · refine .inr ⟨_, _, rfl, parseV4_v4From h6 h7, fun v => ?_⟩
    rw [hembeds]
    omega
  · refine .inr ⟨_, _, rfl, parseV4_v4From h1 h2, fun v => ?_⟩
    rw [hembeds]
    omega
  · refine .inl ⟨rfl, fun v => ?_⟩
    rw [hembeds]
    omega

theorem checkV4_eq_false {n : ℕ} : checkV4 n = false ↔ ∀ s ∈ blockedV4, ¬ s.Holds 32 n := by
  simp [checkV4]

/-- **An address passes if and only if it is one of the public network**, and none is so written
that the check throws. -/
theorem isBlockedAddress_spec (ip : Text) : ∃ blocked, isBlockedAddress ip = .ok blocked ∧
    (blocked = false ↔ ∃ a, addressOf ip = some a ∧ a.Public) := by
  unfold isBlockedAddress addressOf
  cases h4 : parseV4 ip with
  | some n =>
    refine ⟨_, rfl, ?_⟩
    rw [checkV4_eq_false]
    simp [Address.Public]
  | none =>
    cases h6 : readV6 ip with
    | none => exact ⟨true, rfl, by simp⟩
    | some gs =>
      dsimp only
      have hmapped : number gs / 2 ^ 32 = 0xffff → Embeds gs (number gs % 2 ^ 32) :=
        fun h => .inl ⟨.inl h, rfl⟩
      have hv6 : checkV6 gs = false ↔ (∀ s ∈ blockedV6, ¬ s.Holds 128 (number gs)) ∧
          (number gs / 2 ^ 32 = 0xffff → checkV4 (number gs % 2 ^ 32) = false) := by
        unfold checkV6
        rw [Bool.or_eq_false_iff, Bool.and_eq_false_imp, decide_eq_true_eq, List.any_eq_false]
        simp only [decide_eq_true_eq]
      rcases embeddedV4_spec h6 with ⟨hnone, hno⟩ | ⟨t, v, hsome, hv, hembeds⟩
      · rw [hnone]
        refine ⟨_, rfl, ?_⟩
        dsimp only
        rw [Option.any_none, Bool.false_or, hv6]
        constructor
        · exact fun h => ⟨_, rfl, h.1, fun v hv => absurd hv (hno v)⟩
        · rintro ⟨a, ha, hpublic⟩
          cases ha
          exact ⟨hpublic.1, fun h => absurd (hmapped h) (hno _)⟩
      · rw [hsome]
        refine ⟨_, rfl, ?_⟩
        dsimp only
        rw [Option.any_some, hv, Bool.or_eq_false_iff, hv6, checkV4_eq_false]
        constructor
        · rintro ⟨hinner, hnets, -⟩
          refine ⟨_, rfl, hnets, fun v' hv' => ?_⟩
          rw [(hembeds v').mp hv']
          exact hinner
        · rintro ⟨a, ha, hpublic⟩
          cases ha
          refine ⟨hpublic.2 v ((hembeds v).mpr rfl), hpublic.1, fun h => ?_⟩
          rw [checkV4_eq_false]
          exact hpublic.2 _ (hmapped h)

end Klick.QuickCheck
