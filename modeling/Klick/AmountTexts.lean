-- The texts of amounts are exact: each reads back as its amount, two amounts have two texts, and no
-- text shows more than an amount from zero up.
import Klick.Amounts

open Js

namespace Klick.Amounts

/-! ## Digits -/

def Digits (t : Text) : Prop := ∀ u ∈ t, isDigit u = true

theorem Digits.append {s t : Text} (hs : Digits s) (ht : Digits t) : Digits (s ++ t) := by
  intro u hu
  rcases List.mem_append.mp hu with hu | hu
  · exact hs u hu
  · exact ht u hu

theorem digits_zeros (k : ℕ) : Digits (List.replicate k zero) := by
  intro u hu
  rw [List.eq_of_mem_replicate hu]
  decide

theorem natOf_append (s t : Text) : natOf (s ++ t) = natOf s * 10 ^ t.length + natOf t := by
  induction s with
  | nil => simp [natOf]
  | cons u s ih =>
    rw [List.cons_append, natOf_cons, natOf_cons, ih, List.length_append, pow_add]
    ring

theorem natOf_replicate_zero (k : ℕ) : natOf (List.replicate k zero) = 0 := by
  have h := natOf_zeros k []
  rwa [List.append_nil] at h

/-- Digits of one length are told apart by their number. -/
theorem digits_ext {s t : Text} (hs : Digits s) (ht : Digits t) (hlen : s.length = t.length)
    (h : natOf s = natOf t) : s = t := by
  induction s generalizing t with
  | nil => exact (List.length_eq_zero_iff.mp hlen.symm).symm
  | cons u s ih =>
    cases t with
    | nil => cases hlen
    | cons v t =>
      have hlen' : s.length = t.length := Nat.succ.inj hlen
      have hs' : Digits s := fun w hw => hs w (List.mem_cons_of_mem _ hw)
      have ht' : Digits t := fun w hw => ht w (List.mem_cons_of_mem _ hw)
      have hslt := natOf_lt_pow hs'
      have htlt := natOf_lt_pow ht'
      rw [natOf_cons, natOf_cons, hlen'] at h
      rw [hlen'] at hslt
      have hdigit : unitDigit u = unitDigit v := by
        have hpos : 0 < 10 ^ t.length := by positivity
        have hu : (unitDigit u * 10 ^ t.length + natOf s) / 10 ^ t.length = unitDigit u := by
          rw [Nat.mul_comm, Nat.mul_add_div hpos, Nat.div_eq_of_lt hslt, Nat.add_zero]
        have hv : (unitDigit v * 10 ^ t.length + natOf t) / 10 ^ t.length = unitDigit v := by
          rw [Nat.mul_comm, Nat.mul_add_div hpos, Nat.div_eq_of_lt htlt, Nat.add_zero]
        rw [← hu, h, hv]
      have hunit : u = v := by
        rw [← digitUnit_unitDigit (hs u List.mem_cons_self), hdigit,
          digitUnit_unitDigit (ht v List.mem_cons_self)]
      rw [hdigit] at h
      rw [hunit, ih hs' ht' hlen' (Nat.add_left_cancel h)]

/-! ## Zeros before and behind -/

theorem padStart_digits {n : ℕ} {t : Text} (h : Digits t) : Digits (padStart n t) :=
  (digits_zeros _).append h

theorem natOf_padStart (n : ℕ) (t : Text) : natOf (padStart n t) = natOf t := natOf_zeros _ t

theorem length_padStart (n : ℕ) (t : Text) : (padStart n t).length = max n t.length := by
  unfold padStart
  rw [List.length_append, List.length_replicate]
  omega

theorem natOf_padEnd (n : ℕ) (t : Text) : natOf (padEnd n t) = natOf t * 10 ^ (n - t.length) := by
  unfold padEnd
  rw [natOf_append, natOf_replicate_zero, List.length_replicate, Nat.add_zero]

theorem stripZeros_front (t : Text) : stripZeros t <+: t := List.rdropWhile_prefix _ t

theorem stripZeros_digits {t : Text} (h : Digits t) : Digits (stripZeros t) := fun u hu =>
  h u ((stripZeros_front t).subset hu)

theorem stripZeros_append (t : Text) :
    stripZeros t ++ List.replicate (t.length - (stripZeros t).length) zero = t := by
  have hsplit : stripZeros t ++ t.rtakeWhile (· = zero) = t := List.rdropWhile_append_rtakeWhile
  have hzeros : t.rtakeWhile (· = zero) =
      List.replicate (t.length - (stripZeros t).length) zero := by
    rw [List.eq_replicate_iff]
    refine ⟨?_, fun u hu => ?_⟩
    swap
    · have hzero := List.mem_rtakeWhile_imp hu
      exact of_decide_eq_true hzero
    have hlen := congrArg List.length hsplit
    rw [List.length_append] at hlen
    omega
  rw [← hzeros]
  exact hsplit

/-- The zeros that were stripped come back. -/
theorem padEnd_stripZeros (t : Text) : padEnd t.length (stripZeros t) = t := stripZeros_append t

theorem stripZeros_length_le (t : Text) : (stripZeros t).length ≤ t.length :=
  (stripZeros_front t).length_le

/-- A fraction as a text has it: without a zero at its end. -/
def Stripped (t : Text) : Prop := ∀ h : t ≠ [], t.getLast h ≠ zero

theorem stripZeros_stripped (t : Text) : Stripped (stripZeros t) := by
  intro h
  have hlast := List.rdropWhile_last_not (fun u => decide (u = zero)) t h
  exact fun heq => hlast (decide_eq_true heq)

theorem stripZeros_of_stripped {t : Text} (h : Stripped t) : stripZeros t = t := by
  unfold stripZeros
  rw [List.rdropWhile_eq_self_iff]
  intro hne
  simpa using h hne

theorem stripZeros_zeros (t : Text) (k : ℕ) :
    stripZeros (t ++ List.replicate k zero) = stripZeros t := by
  induction k with
  | zero => rw [List.replicate_zero, List.append_nil]
  | succ k ih =>
    unfold stripZeros at ih ⊢
    rw [List.replicate_succ', ← List.append_assoc, List.rdropWhile_concat_pos _ _ _ (by simp), ih]

/-- **The digits behind the point are the fraction**, once their zeros are stripped. -/
theorem stripZeros_eq_fracOf {b : Text} (hb : Digits b) (q : ℕ) :
    stripZeros b = fracOf (q * 10 ^ b.length + natOf b) b.length := by
  have hlt := natOf_lt_pow hb
  have hmod : (q * 10 ^ b.length + natOf b) % 10 ^ b.length = natOf b := by
    rw [Nat.mul_comm, Nat.mul_add_mod, Nat.mod_eq_of_lt hlt]
  unfold fracOf
  rw [hmod]
  rcases Nat.eq_zero_or_pos b.length with hzero | hpos
  · rw [List.length_eq_zero_iff.mp hzero]
    decide
  · have hlen := (decimal_length_le hpos).mpr hlt
    congr 1
    apply digits_ext hb (padStart_digits (decimal_digits _))
    · rw [length_padStart]
      omega
    · rw [natOf_padStart, natOf_decimal]

theorem fracOf_digits (n d : ℕ) : Digits (fracOf n d) :=
  stripZeros_digits (padStart_digits (decimal_digits _))

theorem fracOf_stripped (n d : ℕ) : Stripped (fracOf n d) := stripZeros_stripped _

theorem fracOf_zero (n : ℕ) : fracOf n 0 = [] := by
  have hmod : n % 10 ^ 0 = 0 := Nat.mod_one n
  rw [fracOf, hmod]
  decide

theorem length_padded {n d : ℕ} (hpos : 0 < d) :
    (padStart d (decimal (n % 10 ^ d))).length = d := by
  have hlen := (decimal_length_le hpos).mpr (Nat.mod_lt n (by positivity : 0 < 10 ^ d))
  rw [length_padStart]
  omega

theorem fracOf_length_le (n d : ℕ) : (fracOf n d).length ≤ d := by
  rcases Nat.eq_zero_or_pos d with rfl | hpos
  · rw [fracOf_zero]
    exact le_refl 0
  · exact (stripZeros_length_le _).trans (length_padded hpos).le

/-- The fraction with its zeros is the rest of the amount. -/
theorem natOf_padEnd_fracOf (n d : ℕ) : natOf (padEnd d (fracOf n d)) = n % 10 ^ d := by
  rcases Nat.eq_zero_or_pos d with rfl | hpos
  · rw [fracOf_zero, Nat.pow_zero, Nat.mod_one]
    decide
  · have hpad := padEnd_stripZeros (padStart d (decimal (n % 10 ^ d)))
    rw [length_padded hpos] at hpad
    unfold fracOf
    rw [hpad, natOf_padStart, natOf_decimal]

/-! ## Reading -/

/-- The number of a fraction. -/
def fractionValue (frac : Text) : ℚ := natOf frac / 10 ^ frac.length

/-- The number of a text without a sign. -/
def unsignedValue (sep : UInt16) (t : Text) : ℚ :=
  match t.splitOn sep with
  | [whole] => natOf whole
  | [whole, frac] => natOf whole + fractionValue frac
  | _ => 0

/-- The number that a reader sees in a text: a minus, digits, and digits behind a separator. -/
def readNumber (sep : UInt16) (t : Text) : ℚ :=
  if t.head? = some (ch '-') then -unsignedValue sep (t.drop 1) else unsignedValue sep t

/-- A German text without the dots between its groups. -/
def ungrouped (t : Text) : Text := t.filter fun u => u ≠ ch '.'

theorem not_mem_of_digits {t : Text} (h : Digits t) {u : UInt16} (hu : isDigit u = false) : u ∉ t := by
  intro hmem
  rw [h u hmem] at hu
  cases hu

theorem splitOn_withFraction {sep : UInt16} (hsep : isDigit sep = false) {w f : Text}
    (hw : Digits w) (hf : Digits f) :
    (withFraction sep w f).splitOn sep = if f = [] then [w] else [w, f] := by
  unfold withFraction
  split_ifs with hnil
  · exact List.splitOn_eq_singleton (not_mem_of_digits hw hsep)
  · rw [List.splitOn_append_cons_self_of_not_mem (not_mem_of_digits hw hsep),
      List.splitOn_eq_singleton (not_mem_of_digits hf hsep)]

theorem unsignedValue_withFraction {sep : UInt16} (hsep : isDigit sep = false) {w f : Text}
    (hw : Digits w) (hf : Digits f) :
    unsignedValue sep (withFraction sep w f) = natOf w + fractionValue f := by
  unfold unsignedValue
  rw [splitOn_withFraction hsep hw hf]
  split_ifs with hnil
  · rw [hnil]
    simp [fractionValue, natOf]
  · rfl

theorem head_withFraction {sep : UInt16} {w f : Text} (hw : Digits w) (hne : w ≠ []) :
    (withFraction sep w f).head? ≠ some (ch '-') := by
  obtain ⟨u, w, rfl⟩ := List.exists_cons_of_ne_nil hne
  have hu : u ≠ ch '-' := by
    rintro rfl
    exact absurd (hw _ List.mem_cons_self) (by decide)
  unfold withFraction
  split_ifs <;> simpa using hu

theorem readNumber_signed {sep : UInt16} (neg : Bool) {t : Text} (h : t.head? ≠ some (ch '-')) :
    readNumber sep (signed neg t) = if neg then -unsignedValue sep t else unsignedValue sep t := by
  unfold readNumber signed
  cases neg with
  | false => simp [h]
  | true => simp

/-- The fraction of an amount is the rest of its unit. -/
theorem fractionValue_fracOf (n d : ℕ) :
    fractionValue (fracOf n d) = ((n % 10 ^ d : ℕ) : ℚ) / 10 ^ d := by
  have hpad := natOf_padEnd_fracOf n d
  have hle := fracOf_length_le n d
  rw [natOf_padEnd] at hpad
  have hpow : (10 : ℚ) ^ d = 10 ^ (fracOf n d).length * 10 ^ (d - (fracOf n d).length) := by
    rw [← pow_add]
    congr 1
    omega
  rw [← hpad, hpow, fractionValue]
  push_cast
  field_simp

theorem amount_split (n d : ℕ) :
    ((n / 10 ^ d : ℕ) : ℚ) + ((n % 10 ^ d : ℕ) : ℚ) / 10 ^ d = n / 10 ^ d := by
  have hsplit : ((10 ^ d * (n / 10 ^ d) + n % 10 ^ d : ℕ) : ℚ) = n := by rw [Nat.div_add_mod]
  have hpow : (10 : ℚ) ^ d ≠ 0 := by positivity
  rw [← hsplit]
  push_cast
  field_simp

/-- A sign in front of the number of an amount. -/
theorem signed_abs (base : ℤ) (x : ℚ) :
    (if decide (base < 0) then -((base.natAbs : ℚ) / x) else (base.natAbs : ℚ) / x) = base / x := by
  by_cases h : base < 0
  · have habs : (base.natAbs : ℚ) = -base := by
      rw [Nat.cast_natAbs, abs_of_neg h, Int.cast_neg]
    rw [if_pos (decide_eq_true h), habs]
    ring
  · have habs : (base.natAbs : ℚ) = base := by
      rw [Nat.cast_natAbs, abs_of_nonneg (not_lt.mp h)]
    rw [if_neg (by simpa using h), habs]

/-- **The text of an amount shows the amount.** -/
theorem readNumber_formatAmount (base : ℤ) (d : ℕ) :
    readNumber (ch '.') (formatAmount base d) = base / 10 ^ d := by
  have hw := decimal_digits (base.natAbs / 10 ^ d)
  have hf := fracOf_digits base.natAbs d
  unfold formatAmount
  simp only
  rw [readNumber_signed _ (head_withFraction hw (decimal_ne_nil _)),
    unsignedValue_withFraction (by decide) hw hf, natOf_decimal, fractionValue_fracOf, amount_split]
  exact signed_abs base _

theorem formatAmount_injective {a b : ℤ} {d : ℕ} (h : formatAmount a d = formatAmount b d) :
    a = b := by
  have hvalue := readNumber_formatAmount a d
  rw [h, readNumber_formatAmount] at hvalue
  have hpow : (10 : ℚ) ^ d ≠ 0 := by positivity
  rw [div_left_inj' hpow] at hvalue
  exact_mod_cast hvalue.symm

/-! ## German texts -/

theorem ungrouped_digits {t : Text} (h : Digits t) : ungrouped t = t := by
  unfold ungrouped
  rw [List.filter_eq_self]
  intro u hu
  have hne : u ≠ ch '.' := by
    rintro rfl
    exact absurd (h _ hu) (by decide)
  exact decide_eq_true hne

/-- The groups are those of the digits. -/
theorem ungrouped_grouped {t : Text} (h : Digits t) : ungrouped (grouped t) = t := by
  induction t with
  | nil => rfl
  | cons u t ih =>
    have hne : u ≠ ch '.' := by
      rintro rfl
      exact absurd (h _ List.mem_cons_self) (by decide)
    have ht := ih fun v hv => h v (List.mem_cons_of_mem _ hv)
    have hdot : ∀ r, ungrouped (ch '.' :: r) = ungrouped r := fun r => by simp [ungrouped]
    have hu : ∀ r, ungrouped (u :: r) = u :: ungrouped r := fun r => by simp [ungrouped, hne]
    rw [grouped, hu]
    split_ifs
    · rw [hdot, ht]
    · rw [ht]

theorem head_grouped {t : Text} (h : Digits t) : (grouped t).head? ≠ some (ch '-') := by
  cases t with
  | nil => simp [grouped]
  | cons u t =>
    have hne : u ≠ ch '-' := by
      rintro rfl
      exact absurd (h _ List.mem_cons_self) (by decide)
    rw [grouped]
    simpa using hne

theorem ungrouped_signed (neg : Bool) {w f : Text} (hw : Digits w) (hf : Digits f) :
    ungrouped (signed neg (withFraction (ch ',') (grouped w) f)) =
      signed neg (withFraction (ch ',') w f) := by
  have hbody : ungrouped (withFraction (ch ',') (grouped w) f) = withFraction (ch ',') w f := by
    have hcomma : ungrouped (ch ',' :: f) = ch ',' :: ungrouped f := by
      unfold ungrouped
      rw [List.filter_cons_of_pos (by decide)]
    unfold withFraction
    split_ifs
    · exact ungrouped_grouped hw
    · have happ : ungrouped (grouped w ++ ch ',' :: f) =
          ungrouped (grouped w) ++ ungrouped (ch ',' :: f) := List.filter_append _ _
      rw [happ, hcomma, ungrouped_grouped hw, ungrouped_digits hf]
  have hminus : ∀ r, ungrouped (ch '-' :: r) = ch '-' :: ungrouped r := by
    intro r
    unfold ungrouped
    rw [List.filter_cons_of_pos (by decide)]
  unfold signed
  cases neg with
  | false => exact hbody
  | true => exact (hminus _).trans (congrArg _ hbody)

theorem fractionValue_stripZeros (t : Text) : fractionValue (stripZeros t) = fractionValue t := by
  have hsplit := stripZeros_append t
  have hle := stripZeros_length_le t
  have hnat : natOf t = natOf (stripZeros t) * 10 ^ (t.length - (stripZeros t).length) := by
    conv_lhs => rw [← hsplit]
    rw [natOf_append, natOf_replicate_zero, List.length_replicate, Nat.add_zero]
  have hpow : (10 : ℚ) ^ t.length =
      10 ^ (stripZeros t).length * 10 ^ (t.length - (stripZeros t).length) := by
    rw [← pow_add]
    congr 1
    omega
  unfold fractionValue
  rw [hnat, hpow]
  push_cast
  field_simp

/-- A fraction that is cut off is not larger. -/
theorem fractionValue_take_le (t : Text) (k : ℕ) : fractionValue (t.take k) ≤ fractionValue t := by
  have hnat : natOf t = natOf (t.take k) * 10 ^ (t.drop k).length + natOf (t.drop k) := by
    rw [← natOf_append, List.take_append_drop]
  have hpow : (10 : ℚ) ^ t.length = 10 ^ (t.take k).length * 10 ^ (t.drop k).length := by
    rw [← pow_add, ← List.length_append, List.take_append_drop]
  have hpos : (0 : ℚ) < 10 ^ (t.take k).length * 10 ^ (t.drop k).length := by positivity
  unfold fractionValue
  rw [hnat, hpow, div_le_div_iff₀ (by positivity) hpos]
  push_cast
  have hrest : (0 : ℚ) ≤ natOf (t.drop k) * 10 ^ (t.take k).length := by positivity
  nlinarith

/-- What is shown in German: the sign, the whole part in groups, and the first digits behind the
comma. -/
theorem formatAmountDe_eq (base : ℤ) (d k : ℕ) : formatAmountDe base d k =
    signed (base < 0) (withFraction (ch ',') (grouped (decimal (base.natAbs / 10 ^ d)))
      (stripZeros ((fracOf base.natAbs d).take k))) := by
  have hw := decimal_digits (base.natAbs / 10 ^ d)
  have hf := fracOf_digits base.natAbs d
  have hhead := @head_withFraction (ch '.') _ (fracOf base.natAbs d) hw (decimal_ne_nil _)
  have hsplit := @splitOn_withFraction (ch '.') (by decide) _ _ hw hf
  have hparts : ∀ w f : Text, ((if f = [] then [w] else [w, f] : List Text)[0]?.getD []) = w ∧
      ((if f = [] then [w] else [w, f] : List Text)[1]?.getD []) = f := by
    intro w f
    split_ifs with hnil
    · exact ⟨rfl, hnil.symm⟩
    · exact ⟨rfl, rfl⟩
  unfold formatAmountDe formatAmount
  simp only
  by_cases hneg : base < 0
  · simp only [signed, hneg, decide_true, if_true, List.head?_cons, List.drop_one, List.tail_cons]
    rw [hsplit, (hparts _ _).1, (hparts _ _).2]
  · simp only [signed, hneg, decide_false, Bool.false_eq_true, if_false, hhead]
    rw [hsplit, (hparts _ _).1, (hparts _ _).2]

/-- The number a German text of an amount shows. -/
theorem readNumber_formatAmountDe (base : ℤ) (d k : ℕ) :
    readNumber (ch ',') (ungrouped (formatAmountDe base d k)) =
      if decide (base < 0) then -((base.natAbs / 10 ^ d : ℕ) +
        fractionValue ((fracOf base.natAbs d).take k))
      else (base.natAbs / 10 ^ d : ℕ) + fractionValue ((fracOf base.natAbs d).take k) := by
  have hw := decimal_digits (base.natAbs / 10 ^ d)
  have hcut : Digits (stripZeros ((fracOf base.natAbs d).take k)) := stripZeros_digits fun u hu =>
    fracOf_digits base.natAbs d u (List.mem_of_mem_take hu)
  rw [formatAmountDe_eq, ungrouped_signed _ hw hcut,
    readNumber_signed _ (head_withFraction hw (decimal_ne_nil _)),
    unsignedValue_withFraction (by decide) hw hcut, natOf_decimal, fractionValue_stripZeros]

/-- **An amount from zero up is never shown as more than it is.** -/
theorem formatAmountDe_le {base : ℤ} (h : 0 ≤ base) (d k : ℕ) :
    readNumber (ch ',') (ungrouped (formatAmountDe base d k)) ≤ base / 10 ^ d := by
  have hnot : decide (base < 0) = false := decide_eq_false (not_lt.mpr h)
  have habs : (base.natAbs : ℚ) = base := by rw [Nat.cast_natAbs, abs_of_nonneg h]
  have hcut := fractionValue_take_le (fracOf base.natAbs d) k
  rw [fractionValue_fracOf] at hcut
  have hsplit := amount_split base.natAbs d
  rw [habs] at hsplit
  rw [readNumber_formatAmountDe, hnot]
  simp only [Bool.false_eq_true, if_false]
  linarith

/-! ## What the confirmation page shows -/

theorem decimal_singleton {u : UInt16} (h : isDigit u = true) : decimal (natOf [u]) = [u] := by
  have hdigits : Digits [u] := fun v hv => by
    rw [List.mem_singleton.mp hv]
    exact h
  have hlt := natOf_lt_pow hdigits
  have hle := (decimal_length_le Nat.one_pos).mpr hlt
  have hpos := List.length_pos_iff.mpr (decimal_ne_nil (natOf [u]))
  apply digits_ext (decimal_digits _) hdigits
  · rw [List.length_singleton]
    omega
  · rw [natOf_decimal]

/-- The whole part of a padded value has no zero in front. -/
theorem decimal_take {value : Text} (h : isUint value = true) (d : ℕ) :
    decimal (natOf ((padStart (d + 1) value).take ((padStart (d + 1) value).length - d))) =
      (padStart (d + 1) value).take ((padStart (d + 1) value).length - d) := by
  have hdigits : Digits value := by
    rw [← decimal_natOf_of_isUint h]
    exact decimal_digits _
  rcases Nat.lt_or_ge (d + 1) value.length with hlong | hshort
  · have hsame : padStart (d + 1) value = value := by
      unfold padStart
      rw [Nat.sub_eq_zero_of_le hlong.le]
      rfl
    rw [hsame]
    have hpos : isPosDigits 1 40 value = true := by
      unfold isUint at h
      simp only [Bool.or_eq_true, decide_eq_true_eq] at h
      rcases h with rfl | h
      · simp at hlong
      · exact h
    obtain ⟨⟨u, r, rfl, hu⟩, hall, -, -⟩ := isPosDigits_iff.mp hpos
    obtain ⟨k, hk⟩ : ∃ k, (u :: r).length - d = k + 1 := ⟨(u :: r).length - d - 1, by omega⟩
    rw [hk, List.take_succ_cons]
    have hfront : isPosDigits 0 (k + 1) (u :: r.take k) = true := by
      refine isPosDigits_iff.mpr ⟨⟨u, _, rfl, hu⟩, fun v hv => ?_, Nat.zero_le _, ?_⟩
      · rw [← List.take_succ_cons] at hv
        exact hall v (List.mem_of_mem_take hv)
      · rw [List.length_cons, List.length_take]
        omega
    exact (decimal_natOf hfront).1
  · have hlen : (padStart (d + 1) value).length = d + 1 := by
      rw [length_padStart]
      omega
    rw [hlen, Nat.add_sub_cancel_left]
    have hne : padStart (d + 1) value ≠ [] := by
      rw [← List.length_pos_iff, hlen]
      exact d.succ_pos
    obtain ⟨u, r, hcons⟩ := List.exists_cons_of_ne_nil hne
    rw [hcons, List.take_succ_cons, List.take_zero]
    apply decimal_singleton
    apply padStart_digits hdigits u
    rw [hcons]
    exact List.mem_cons_self

/-- **The confirmation page shows the amount as the app does**, with all its digits. -/
theorem formatUnits_eq {value : Text} (h : isUint value = true) (d : ℕ) :
    formatUnits value d = some (formatAmountDe (natOf value : ℕ) d d) := by
  have hdigits : Digits (padStart (d + 1) value) := by
    apply padStart_digits
    rw [← decimal_natOf_of_isUint h]
    exact decimal_digits _
  have hlen : d ≤ (padStart (d + 1) value).length := by
    rw [length_padStart]
    omega
  have hwhole := decimal_take h d
  unfold formatUnits
  rw [if_pos h]
  simp only
  have happ := List.take_append_drop ((padStart (d + 1) value).length - d) (padStart (d + 1) value)
  have hblen : ((padStart (d + 1) value).drop ((padStart (d + 1) value).length - d)).length = d := by
    rw [List.length_drop]
    omega
  have hb : Digits ((padStart (d + 1) value).drop ((padStart (d + 1) value).length - d)) :=
    fun u hu => hdigits u (List.mem_of_mem_drop hu)
  generalize (padStart (d + 1) value).take ((padStart (d + 1) value).length - d) = a at *
  generalize (padStart (d + 1) value).drop ((padStart (d + 1) value).length - d) = b at *
  have hvalue : natOf value = natOf a * 10 ^ d + natOf b := by
    rw [← natOf_padStart (d + 1) value, ← happ, natOf_append, hblen]
  have hblt : natOf b < 10 ^ d := hblen ▸ natOf_lt_pow hb
  have hdiv : natOf value / 10 ^ d = natOf a := by
    rw [hvalue, Nat.mul_comm, Nat.mul_add_div (by positivity), Nat.div_eq_of_lt hblt, Nat.add_zero]
  have hfrac : stripZeros b = fracOf (natOf value) d := by
    rw [stripZeros_eq_fracOf hb (natOf a), hblen, ← hvalue]
  have hall : (fracOf (natOf value) d).take d = fracOf (natOf value) d :=
    List.take_of_length_le (fracOf_length_le _ _)
  rw [formatAmountDe_eq, Int.natAbs_natCast, hdiv, hwhole, hall, hfrac,
    stripZeros_of_stripped (fracOf_stripped _ _)]
  rfl

/-! ## What is read back -/

theorem takeWhile_digits {w : Text} (hw : Digits w) {u : UInt16} (hu : isDigit u = false) (r : Text) :
    (w ++ u :: r).takeWhile isDigit = w ∧ (w ++ u :: r).dropWhile isDigit = u :: r := by
  rw [List.takeWhile_append_of_pos hw, List.dropWhile_append_of_pos hw,
    List.takeWhile_cons_of_neg (by simp [hu]), List.dropWhile_cons_of_neg (by simp [hu]),
    List.append_nil]
  exact ⟨rfl, rfl⟩

theorem takeWhile_all {w : Text} (hw : Digits w) :
    w.takeWhile isDigit = w ∧ w.dropWhile isDigit = [] := by
  refine ⟨List.takeWhile_eq_self_iff.mpr hw, List.dropWhile_eq_nil_iff.mpr hw⟩

theorem trim_amount (neg : Bool) {w f : Text} (hw : Digits w) (hf : Digits f) :
    trim (signed neg (withFraction (ch '.') w f)) = signed neg (withFraction (ch '.') w f) := by
  have hdigit : ∀ u, isDigit u = true → isTrimmed u = false := by
    intro u hu
    simp only [isDigit, Bool.and_eq_true, decide_eq_true_eq] at hu
    exact isTrimmed_visible (by omega) (by omega)
  have hbody : ∀ u ∈ withFraction (ch '.') w f, isTrimmed u = false := by
    intro u hu
    unfold withFraction at hu
    split_ifs at hu
    · exact hdigit u (hw u hu)
    · rcases List.mem_append.mp hu with hu | hu
      · exact hdigit u (hw u hu)
      · rcases List.mem_cons.mp hu with rfl | hu
        · decide
        · exact hdigit u (hf u hu)
  apply trim_eq_self
  intro u hu
  unfold signed at hu
  split_ifs at hu
  · rcases List.mem_cons.mp hu with rfl | hu
    · decide
    · exact hbody u hu
  · exact hbody u hu

/-- The pattern reads a whole part and a fraction that are not too long. -/
theorem readPattern_withFraction {w f : Text} (hw : Digits w) (hne : w ≠ []) (hf : Digits f) :
    readPattern (withFraction (ch '.') w f) = if w.length ≤ 30 ∧ f.length ≤ 36 then
      some (w, if f = [] then none else some f) else none := by
  have hlen : w.length ≠ 0 := fun h => hne (List.length_eq_zero_iff.mp h)
  have hall : f.all isDigit = true := List.all_eq_true.mpr hf
  unfold readPattern withFraction
  by_cases hnil : f = []
  · rw [if_pos hnil, (takeWhile_all hw).1, (takeWhile_all hw).2]
    by_cases hlong : w.length ≤ 30
    · simp [hlen, hlong, hnil, not_lt.mpr hlong]
    · simp [hlong, not_le.mp hlong]
  · rw [if_neg hnil, (takeWhile_digits hw (by decide) f).1, (takeWhile_digits hw (by decide) f).2]
    by_cases hlong : w.length ≤ 30
    · by_cases hfrac : f.length ≤ 36
      · simp [hlen, hlong, hnil, not_lt.mpr hlong, hfrac, hall]
      · simp [hlen, hlong, not_lt.mpr hlong, hfrac]
    · simp [hlong, not_le.mp hlong]

/-- What is accepted of a text with a whole part and a fraction. -/
theorem parseAmount_withFraction {w f : Text} (hw : Digits w) (hne : w ≠ []) (hf : Digits f) (d : ℕ)
    (allowZero : Bool) : parseAmount (withFraction (ch '.') w f) d allowZero =
      if w.length ≤ 30 ∧ f.length ≤ 36 then
        if d < f.length then .error .precision
        else if natOf w * 10 ^ d + natOf (padEnd d f) = 0 && !allowZero then .error .zero
        else .ok (natOf w * 10 ^ d + natOf (padEnd d f))
      else .error .format := by
  have htrim : trim (withFraction (ch '.') w f) = withFraction (ch '.') w f :=
    trim_amount false hw hf
  have hgroup : (if f = [] then none else some f : Option Text).getD [] = f := by
    split_ifs with hnil
    · exact hnil.symm
    · rfl
  unfold parseAmount
  rw [htrim, readPattern_withFraction hw hne hf]
  by_cases hfit : w.length ≤ 30 ∧ f.length ≤ 36
  · simp only [if_pos hfit, hgroup]
  · simp only [if_neg hfit]

/-- An amount whose text the pattern accepts: 30 digits, and 36 behind the point. -/
def Fits (n d : ℕ) : Prop := (decimal (n / 10 ^ d)).length ≤ 30 ∧ (fracOf n d).length ≤ 36

/-- **The text of an amount is read back as the amount**, and zero only where it is allowed. -/
theorem parseAmount_formatAmount {n d : ℕ} (h : Fits n d) (allowZero : Bool) :
    parseAmount (formatAmount n d) d allowZero =
      if n = 0 && !allowZero then .error .zero else .ok n := by
  have hvalue : natOf (decimal (n / 10 ^ d)) * 10 ^ d + natOf (padEnd d (fracOf n d)) = n := by
    rw [natOf_decimal, natOf_padEnd_fracOf, Nat.mul_comm, Nat.div_add_mod]
  have htext : formatAmount n d =
      withFraction (ch '.') (decimal (n / 10 ^ d)) (fracOf n d) := by
    unfold formatAmount signed
    simp
  have hfit : (decimal (n / 10 ^ d)).length ≤ 30 ∧ (fracOf n d).length ≤ 36 := h
  rw [htext, parseAmount_withFraction (decimal_digits _) (decimal_ne_nil _) (fracOf_digits _ _),
    if_pos hfit, if_neg (not_lt.mpr (fracOf_length_le n d)), hvalue]

/-- A text without a zero in front of its whole part or at the end of its fraction. -/
structure Canonical (t : Text) : Prop where
  parts : ∃ w f, t = withFraction (ch '.') w f ∧ decimal (natOf w) = w ∧ Digits f ∧ Stripped f

theorem formatAmount_canonical (n d : ℕ) : Canonical (formatAmount n d) := by
  refine ⟨⟨decimal (n / 10 ^ d), fracOf n d, ?_, ?_, fracOf_digits _ _, fracOf_stripped _ _⟩⟩
  · unfold formatAmount signed
    simp
  · rw [natOf_decimal]

/-- **A canonical text that is read as an amount is the text of the amount.** -/
theorem formatAmount_parseAmount {t : Text} (h : Canonical t) {d n : ℕ} {allowZero : Bool}
    (hparse : parseAmount t d allowZero = .ok n) : formatAmount n d = t := by
  obtain ⟨w, f, rfl, hw, hf, hstripped⟩ := h.parts
  have hwdigits : Digits w := by
    rw [← hw]
    exact decimal_digits _
  have hne : w ≠ [] := by
    rw [← hw]
    exact decimal_ne_nil _
  rw [parseAmount_withFraction hwdigits hne hf] at hparse
  split_ifs at hparse with hfit hlong hzero
  have hpad : (padEnd d f).length = d := by
    unfold padEnd
    rw [List.length_append, List.length_replicate]
    omega
  have hpadDigits : Digits (padEnd d f) := hf.append (digits_zeros _)
  have hlt : natOf (padEnd d f) < 10 ^ d := by
    have hbound := natOf_lt_pow hpadDigits
    rwa [hpad] at hbound
  have hn : natOf w * 10 ^ d + natOf (padEnd d f) = n := Except.ok.inj hparse
  have hdiv : n / 10 ^ d = natOf w := by
    rw [← hn, Nat.mul_comm, Nat.mul_add_div (by positivity), Nat.div_eq_of_lt hlt, Nat.add_zero]
  have hfrac : fracOf n d = f := by
    have hstrip := stripZeros_eq_fracOf hpadDigits (natOf w)
    rw [hpad, hn] at hstrip
    rw [← hstrip]
    exact (stripZeros_zeros f _).trans (stripZeros_of_stripped hstripped)
  unfold formatAmount signed
  simp [hdiv, hw, hfrac]

/-! ## What a node reports -/

/-- The amounts as a node writes them: eight digits behind the point, and a minus before an amount
below zero. -/
structure NodeAmount (t : Text) : Prop where
  parts : ∃ neg w f, t = signed neg (w ++ ch '.' :: f) ∧ decimal (natOf w) = w ∧ Digits f ∧
    f.length = 8 ∧ (neg = true → 0 < natOf w ∨ 0 < natOf f)

theorem btcToSats_signed {neg : Bool} {w f : Text} (hw : Digits w) (hne : w ≠ []) (hf : Digits f)
    (hlen : f.length = 8) : btcToSats (signed neg (w ++ ch '.' :: f)) =
      some (if neg then -(natOf w * 100000000 + natOf f : ℤ)
        else natOf w * 100000000 + natOf f) := by
  have hnil : f ≠ [] := by
    rintro rfl
    cases hlen
  have hbody : withFraction (ch '.') w f = w ++ ch '.' :: f := if_neg hnil
  have htrim := trim_amount neg hw hf
  have hhead := @head_withFraction (ch '.') _ f hw hne
  have hall : f.all isDigit = true := List.all_eq_true.mpr hf
  have hpad : padEnd 8 f = f := by
    unfold padEnd
    rw [hlen]
    exact List.append_nil f
  have hwhole := takeWhile_digits hw (by decide : isDigit (ch '.') = false) f
  rw [hbody] at htrim hhead
  generalize w ++ ch '.' :: f = body at *
  have hread : readBtc (signed neg body) = some (neg, w, some f) := by
    unfold readBtc
    cases neg with
    | false => simp [signed, hhead, hwhole.1, hwhole.2, hne, hnil, hlen, hall]
    | true => simp [signed, hwhole.1, hwhole.2, hne, hnil, hlen, hall]
  unfold btcToSats
  rw [htrim, hread]
  simp [hpad]

theorem satsToBtc_fraction (sats : ℤ) :
    Digits (padStart 8 (decimal (sats.natAbs % 100000000))) ∧
      (padStart 8 (decimal (sats.natAbs % 100000000))).length = 8 ∧
      natOf (padStart 8 (decimal (sats.natAbs % 100000000))) = sats.natAbs % 100000000 := by
  refine ⟨padStart_digits (decimal_digits _), ?_, ?_⟩
  · exact length_padded (d := 8) (by norm_num)
  · rw [natOf_padStart, natOf_decimal]

/-- **The amounts a node reports are read as they are written.** -/
theorem btcToSats_satsToBtc (sats : ℤ) : btcToSats (satsToBtc sats) = some sats := by
  obtain ⟨hdigits, hlen, hnat⟩ := satsToBtc_fraction sats
  have hsplit := Nat.div_add_mod' sats.natAbs 100000000
  unfold satsToBtc
  simp only
  rw [btcToSats_signed (decimal_digits _) (decimal_ne_nil _) hdigits hlen, hnat, natOf_decimal]
  congr 1
  by_cases h : sats < 0
  · rw [decide_eq_true h, if_pos rfl]
    omega
  · rw [decide_eq_false h, if_neg (by simp)]
    omega

theorem satsToBtc_btcToSats {t : Text} (h : NodeAmount t) :
    ∃ sats, btcToSats t = some sats ∧ satsToBtc sats = t := by
  obtain ⟨neg, w, f, rfl, hw, hf, hlen, hzero⟩ := h.parts
  have hwdigits : Digits w := by
    rw [← hw]
    exact decimal_digits _
  have hne : w ≠ [] := by
    rw [← hw]
    exact decimal_ne_nil _
  have hlt : natOf f < 100000000 := by
    have hbound := natOf_lt_pow hf
    rw [hlen] at hbound
    exact hbound
  refine ⟨_, btcToSats_signed hwdigits hne hf hlen, ?_⟩
  have habs : (if neg then -(natOf w * 100000000 + natOf f : ℤ)
      else natOf w * 100000000 + natOf f).natAbs = natOf w * 100000000 + natOf f := by
    split_ifs <;> omega
  have hsign : decide ((if neg then -(natOf w * 100000000 + natOf f : ℤ)
      else natOf w * 100000000 + natOf f) < 0) = neg := by
    cases neg with
    | false => simp; omega
    | true =>
      have hpos := hzero rfl
      simp
      omega
  have hdiv : (natOf w * 100000000 + natOf f) / 100000000 = natOf w := by omega
  have hmod : (natOf w * 100000000 + natOf f) % 100000000 = natOf f := by omega
  have hfrac : padStart 8 (decimal (natOf f)) = f := by
    have hpadded := length_padded (n := natOf f) (d := 8) (by norm_num)
    rw [Nat.mod_eq_of_lt (by norm_num; exact hlt)] at hpadded
    apply digits_ext (padStart_digits (decimal_digits _)) hf
    · rw [hpadded, hlen]
    · rw [natOf_padStart, natOf_decimal]
  unfold satsToBtc
  simp only
  rw [habs, hsign, hdiv, hmod, hw, hfrac]

theorem satsToBtc_shows (sats : ℤ) : readNumber (ch '.') (satsToBtc sats) = sats / 10 ^ 8 := by
  obtain ⟨hdigits, hlen, hnat⟩ := satsToBtc_fraction sats
  have hnil : padStart 8 (decimal (sats.natAbs % 100000000)) ≠ [] := by
    intro h
    rw [h] at hlen
    cases hlen
  have hbody : withFraction (ch '.') (decimal (sats.natAbs / 100000000))
      (padStart 8 (decimal (sats.natAbs % 100000000))) = decimal (sats.natAbs / 100000000) ++
        ch '.' :: padStart 8 (decimal (sats.natAbs % 100000000)) := if_neg hnil
  have hpow : (100000000 : ℕ) = 10 ^ 8 := by norm_num
  unfold satsToBtc
  simp only
  rw [← hbody, readNumber_signed _ (head_withFraction (decimal_digits _) (decimal_ne_nil _)),
    unsignedValue_withFraction (by decide) (decimal_digits _) hdigits, natOf_decimal, fractionValue,
    hnat, hlen, hpow, amount_split]
  exact signed_abs sats _

/-! ## The texts are exact -/

/-- With all its digits a German text shows what the canonical text shows. -/
theorem readNumber_formatAmountDe_all (n d : ℕ) :
    readNumber (ch ',') (ungrouped (formatAmountDe n d d)) =
      readNumber (ch '.') (formatAmount n d) := by
  have hnot : decide ((n : ℤ) < 0) = false := decide_eq_false (by omega)
  have hall : (fracOf n d).take d = fracOf n d := List.take_of_length_le (fracOf_length_le _ _)
  rw [readNumber_formatAmount, readNumber_formatAmountDe, hnot]
  simp only [Bool.false_eq_true, if_false, Int.natAbs_natCast, Int.cast_natCast]
  rw [hall, fractionValue_fracOf, amount_split]

theorem isUint_of_formatUnits {value t : Text} {d : ℕ} (h : formatUnits value d = some t) :
    isUint value = true := by
  unfold formatUnits at h
  split_ifs at h with huint
  exact huint

/-- Two values are shown by two texts. -/
theorem formatUnits_injective {v w t : Text} {d : ℕ} (hv : formatUnits v d = some t)
    (hw : formatUnits w d = some t) : v = w := by
  have hvuint := isUint_of_formatUnits hv
  have hwuint := isUint_of_formatUnits hw
  rw [formatUnits_eq hvuint] at hv
  rw [formatUnits_eq hwuint] at hw
  have hsame : formatAmountDe (natOf v : ℕ) d d = formatAmountDe (natOf w : ℕ) d d :=
    Option.some.inj (hv.trans hw.symm)
  have hvalue := readNumber_formatAmountDe_all (natOf v) d
  rw [hsame, readNumber_formatAmountDe_all, readNumber_formatAmount, readNumber_formatAmount,
    div_left_inj' (by positivity)] at hvalue
  have hnat : natOf w = natOf v := by exact_mod_cast hvalue
  rw [← decimal_natOf_of_isUint hvuint, ← hnat, decimal_natOf_of_isUint hwuint]

end Klick.Amounts
