-- The fixed formats of the fields that the signer and the confirmation page
-- read, and texts made of fields with a bar between them.
import Klick.Checked
import Klick.Text

open Js

namespace Klick

/-! ## Formats -/

/-- `/^(0|[1-9][0-9]{0,39})$/` -/
def isUint (t : Text) : Bool := t = [ch '0'] || isPosDigits 1 40 t

/-- `/^[1-9][0-9]{0,39}$/` -/
def isPosint (t : Text) : Bool := isPosDigits 1 40 t

/-- `/^[1-9][0-9]{8,10}$/` -/
def isSeconds (t : Text) : Bool := isPosDigits 9 11 t

/-- `/^[0-9a-f]{n}$/` -/
def isHex (n : Nat) (t : Text) : Bool := t.length = n && t.all isHexLower

/-- `/^[0-9a-f]{8}-[0-9a-f]{4}-[0-9a-f]{4}-[0-9a-f]{4}-[0-9a-f]{12}$/` -/
def isUuid (t : Text) : Bool :=
  (t.splitOn (ch '-')).map List.length = [8, 4, 4, 4, 12] &&
    (t.splitOn (ch '-')).all fun part => part.all isHexLower

/-- `/^[\x21-\x7e]+$/` -/
def isVisibleText (t : Text) : Bool := t ≠ [] && t.all isVisible

/-- The mark of an absent field. -/
def noField : Text := js "-"

def bar : UInt16 := ch '|'

/-! ## What a field can contain -/

/-- Visible units and no bar. -/
def FieldText (t : Text) : Prop := ∀ u ∈ t, isVisible u = true ∧ u ≠ bar

theorem fieldText_of_all {t : Text} (h : (t.all fun u => isVisible u && u != bar) = true) :
    FieldText t := by
  intro u hu
  simpa using List.all_eq_true.mp h u hu

theorem FieldText.append {s t : Text} (hs : FieldText s) (ht : FieldText t) :
    FieldText (s ++ t) := by
  intro u hu
  rcases List.mem_append.mp hu with hu | hu
  · exact hs u hu
  · exact ht u hu

theorem fieldText_of_hex {t : Text} (h : ∀ u ∈ t, isHexLower u = true) : FieldText t := by
  intro u hu
  refine ⟨isVisible_of_isHexLower (h u hu), ?_⟩
  rintro rfl
  exact absurd (h _ hu) (by decide)

theorem fieldText_of_digits {t : Text} (h : ∀ u ∈ t, isDigit u = true) : FieldText t :=
  fieldText_of_hex fun u hu => by simp [isHexLower, h u hu]

theorem fieldText_of_isHex {n : Nat} {t : Text} (h : isHex n t = true) : FieldText t := by
  simp only [isHex, Bool.and_eq_true, List.all_eq_true] at h
  exact fieldText_of_hex h.2

theorem fieldText_decimal (n : Nat) : FieldText (decimal n) := fieldText_of_digits (decimal_digits n)

theorem fieldText_of_isPosDigits {lo hi : Nat} {t : Text} (h : isPosDigits lo hi t = true) :
    FieldText t := fieldText_of_digits (isPosDigits_iff.mp h).2.1

theorem fieldText_of_isUuid {t : Text} (h : isUuid t = true) : FieldText t := by
  simp only [isUuid, Bool.and_eq_true, List.all_eq_true] at h
  intro u hu
  rw [← join_splitOn (ch '-') t] at hu
  rcases mem_join hu with rfl | ⟨part, hpart, hu⟩
  · decide
  · exact fieldText_of_hex (h.2 part hpart) u hu

theorem isUuid_length {t : Text} (h : isUuid t = true) : t.length = 36 := by
  simp only [isUuid, Bool.and_eq_true, decide_eq_true_eq] at h
  have hj := join_splitOn (ch '-') t
  generalize t.splitOn (ch '-') = parts at h hj
  have hsum : (parts.map List.length).sum = 32 := by
    rw [h.1]
    rfl
  have hcount : parts.length = 5 := by simpa using congrArg List.length h.1
  have hne : parts ≠ [] := by
    rintro rfl
    cases hcount
  have hlen := @join_length (ch '-') parts hne
  rw [hj] at hlen
  omega

theorem isPosint_decimal {n : Nat} (h0 : 0 < n) (h : n < 10 ^ 40) :
    isPosint (decimal n) = true :=
  isPosDigits_decimal h0 (List.length_pos_iff.mpr (decimal_ne_nil n))
    ((decimal_length_le (by omega)).mpr h)

theorem isUint_decimal {n : Nat} (h : n < 10 ^ 40) : isUint (decimal n) = true := by
  rcases Nat.eq_zero_or_pos n with rfl | hn
  · decide
  · have hpos := isPosint_decimal hn h
    simp only [isPosint] at hpos
    simp [isUint, hpos]

theorem decimal_natOf_of_isUint {t : Text} (h : isUint t = true) : decimal (natOf t) = t := by
  simp only [isUint, Bool.or_eq_true, decide_eq_true_eq] at h
  rcases h with rfl | h
  · decide
  · exact (decimal_natOf h).1

theorem natOf_lt_of_isPosint {t : Text} (h : isPosint t = true) : natOf t < 10 ^ 40 := by
  have hlen := (isPosDigits_iff.mp h).2.2.2
  rw [← (decimal_natOf h).1] at hlen
  exact (decimal_length_le (by omega)).mp hlen

theorem natOf_lt_of_isUint {t : Text} (h : isUint t = true) : natOf t < 10 ^ 40 := by
  have hlen : t.length ≤ 40 := by
    simp only [isUint, Bool.or_eq_true, decide_eq_true_eq] at h
    rcases h with rfl | h
    · decide
    · exact (isPosDigits_iff.mp h).2.2.2
  rw [← decimal_natOf_of_isUint h] at hlen
  exact (decimal_length_le (by omega)).mp hlen

/-- A whole number whose text is a count of seconds is not negative. -/
theorem isSeconds_intText {z : ℤ} (h : isSeconds (intText z) = true) :
    ∃ n : ℕ, z = n ∧ intText z = decimal n ∧ isSeconds (decimal n) = true := by
  have hz : ¬ z < 0 := by
    intro hneg
    rw [intText, if_pos hneg] at h
    have hdigit := (isPosDigits_iff.mp h).2.1 (ch '-') (by simp)
    exact absurd hdigit (by decide)
  have htext : intText z = decimal z.natAbs := by rw [intText, if_neg hz]
  exact ⟨z.natAbs, by omega, htext, by rwa [htext] at h⟩

theorem decimal_length_of_isSeconds {n : ℕ} (h : isSeconds (decimal n) = true) :
    (decimal n).length ≤ 11 := (isPosDigits_iff.mp h).2.2.2

@[simp] theorem intText_ofNat (n : ℕ) : intText (n : ℤ) = decimal n := by
  simp [intText]

/-- A field of digits is not the mark of an absent field. -/
theorem ne_noField_of_digits {t : Text} (h : ∀ u ∈ t, isDigit u = true) : t ≠ noField := by
  rintro rfl
  exact absurd (h (ch '-') (by simp [noField, js])) (by decide)

theorem isUuid_ne_noField {t : Text} (h : isUuid t = true) : t ≠ noField := by
  rintro rfl
  exact absurd h (by decide)

/-! ## Fields with bars between them -/

theorem splitOn_join {ts : List Text} (hne : ts ≠ []) (h : ∀ t ∈ ts, FieldText t) :
    (join bar ts).splitOn bar = ts := by
  apply List.splitOn_intercalate _ _ hne
  intro t ht hmem
  exact (h t ht bar hmem).2 rfl

theorem isVisibleText_join {ts : List Text} (hne : join bar ts ≠ []) (h : ∀ t ∈ ts, FieldText t) :
    isVisibleText (join bar ts) = true := by
  simp only [isVisibleText, Bool.and_eq_true, decide_eq_true_eq, List.all_eq_true]
  refine ⟨hne, ?_⟩
  intro u hu
  rcases mem_join hu with rfl | ⟨t, ht, hu⟩
  · decide
  · exact (h t ht u hu).1

end Klick
