-- Texts of JavaScript: lists of UTF-16 code units, with the character
-- classes, the decimal notation and the fixed shapes that a program tests
-- with regular expressions.
import Mathlib

namespace Js

/-- A string of JavaScript: its UTF-16 code units, lone surrogates included. -/
abbrev Text := List UInt16

instance lawfulBEqText : LawfulBEq Text := inferInstance

/-- The code unit of a character below U+10000. -/
def ch (c : Char) : UInt16 := UInt16.ofNat c.toNat

/-- The text of a literal, all of whose characters lie below U+10000. -/
def js (s : String) : Text := s.toList.map ch

theorem js_append (s t : String) : js (s ++ t) = js s ++ js t := by
  simp [js]

/-- A literal as the list of its characters, which spares decoding it. -/
theorem js_ofList (cs : List Char) : js (String.ofList cs) = cs.map ch := by
  simp [js]

/-- `ts.join(sep)` for a separator of one code unit. -/
def join (sep : UInt16) (ts : List Text) : Text := [sep].intercalate ts

@[simp] theorem join_nil (sep : UInt16) : join sep [] = [] := rfl

@[simp] theorem join_singleton (sep : UInt16) (t : Text) : join sep [t] = t := by
  simp [join]

@[simp] theorem join_cons_cons (sep : UInt16) (s t : Text) (ts : List Text) :
    join sep (s :: t :: ts) = s ++ sep :: join sep (t :: ts) := by
  simp [join, List.intercalate]

/-- A separator that stands in neither head splits two equal lists at one place. -/
theorem append_cons_cancel {α : Type} {u : α} {a b x y : List α} (ha : u ∉ a) (hb : u ∉ b)
    (h : a ++ u :: x = b ++ u :: y) : a = b ∧ x = y := by
  induction a generalizing b with
  | nil =>
    cases b with
    | nil => exact ⟨rfl, (List.cons.inj h).2⟩
    | cons d b => exact absurd (List.cons.inj h).1 fun hu => hb (by simp [hu])
  | cons c a ih =>
    cases b with
    | nil => exact absurd (List.cons.inj h).1 fun hu => ha (by simp [hu])
    | cons d b =>
      obtain ⟨hcd, h⟩ := List.cons.inj h
      obtain ⟨hab, hxy⟩ := ih (fun hu => ha (List.mem_cons_of_mem _ hu))
        (fun hu => hb (List.mem_cons_of_mem _ hu)) h
      exact ⟨by rw [hcd, hab], hxy⟩

theorem mem_join {sep u : UInt16} {ts : List Text} (h : u ∈ join sep ts) :
    u = sep ∨ ∃ t ∈ ts, u ∈ t := by
  induction ts with
  | nil => simp at h
  | cons t ts ih =>
    cases ts with
    | nil => exact Or.inr ⟨t, by simp, by simpa using h⟩
    | cons s ts =>
      rw [join_cons_cons, List.mem_append, List.mem_cons] at h
      rcases h with h | h | h
      · exact Or.inr ⟨t, by simp, h⟩
      · exact Or.inl h
      · rcases ih h with h | ⟨r, hr, hu⟩
        · exact Or.inl h
        · exact Or.inr ⟨r, List.mem_cons_of_mem _ hr, hu⟩

theorem join_length {sep : UInt16} {ts : List Text} (h : ts ≠ []) :
    (join sep ts).length + 1 = ts.length + (ts.map List.length).sum := by
  induction ts with
  | nil => exact absurd rfl h
  | cons t ts ih =>
    cases ts with
    | nil => simp; omega
    | cons s ts =>
      have := ih (by simp)
      rw [join_cons_cons]
      simp only [List.length_append, List.length_cons, List.map_cons, List.sum_cons] at this ⊢
      omega

theorem join_splitOn (sep : UInt16) (t : Text) : join sep (t.splitOn sep) = t :=
  List.intercalate_splitOn sep

/-! ## Character classes -/

/-- `[0-9]` -/
def isDigit (u : UInt16) : Bool := 48 ≤ u.toNat && u.toNat ≤ 57

/-- `[0-9a-f]` -/
def isHexLower (u : UInt16) : Bool := isDigit u || (97 ≤ u.toNat && u.toNat ≤ 102)

/-- `[\x21-\x7e]` -/
def isVisible (u : UInt16) : Bool := 0x21 ≤ u.toNat && u.toNat ≤ 0x7e

theorem isVisible_of_isDigit {u : UInt16} (h : isDigit u = true) : isVisible u = true := by
  simp only [isDigit, isVisible, Bool.and_eq_true, decide_eq_true_eq] at h ⊢
  omega

theorem isVisible_of_isHexLower {u : UInt16} (h : isHexLower u = true) : isVisible u = true := by
  simp only [isHexLower, isDigit, isVisible, Bool.or_eq_true, Bool.and_eq_true,
    decide_eq_true_eq] at h ⊢
  omega

/-! ## Decimal notation -/

/-- The digit `d` as a code unit. -/
def digitUnit (d : Nat) : UInt16 := UInt16.ofNat (48 + d)

/-- The value of a digit. -/
def unitDigit (u : UInt16) : Nat := u.toNat - 48

/-- `String(n)` for a number without sign. -/
def decimal (n : Nat) : Text :=
  if n = 0 then [ch '0'] else (Nat.digits 10 n).reverse.map digitUnit

/-- `String(z)` for an integer. -/
def intText (z : Int) : Text :=
  if z < 0 then ch '-' :: decimal z.natAbs else decimal z.natAbs

/-- The number that a run of digits denotes, as `BigInt` reads it. -/
def natOf (t : Text) : Nat := Nat.ofDigits 10 (t.map unitDigit).reverse

theorem digitUnit_toNat {d : Nat} (h : d < 10) : (digitUnit d).toNat = 48 + d := by
  simp only [digitUnit, UInt16.toNat_ofNat']
  omega

theorem unitDigit_digitUnit {d : Nat} (h : d < 10) : unitDigit (digitUnit d) = d := by
  simp only [unitDigit, digitUnit_toNat h]
  omega

theorem digitUnit_unitDigit {u : UInt16} (h : isDigit u = true) : digitUnit (unitDigit u) = u := by
  simp only [isDigit, Bool.and_eq_true, decide_eq_true_eq] at h
  apply UInt16.toNat_inj.mp
  rw [digitUnit_toNat (by unfold unitDigit; omega)]
  unfold unitDigit
  omega

theorem isDigit_digitUnit {d : Nat} (h : d < 10) : isDigit (digitUnit d) = true := by
  simp only [isDigit, digitUnit_toNat h, Bool.and_eq_true, decide_eq_true_eq]
  omega

theorem unitDigit_lt {u : UInt16} (h : isDigit u = true) : unitDigit u < 10 := by
  simp only [isDigit, Bool.and_eq_true, decide_eq_true_eq] at h
  unfold unitDigit
  omega

theorem natOf_decimal (n : Nat) : natOf (decimal n) = n := by
  unfold natOf decimal
  split
  · subst_vars; decide
  · rw [List.map_map, List.map_reverse, List.reverse_reverse]
    have hd : (Nat.digits 10 n).map (unitDigit ∘ digitUnit) = Nat.digits 10 n := by
      conv_rhs => rw [← List.map_id (Nat.digits 10 n)]
      exact List.map_congr_left fun d hd => unitDigit_digitUnit (Nat.digits_lt_base (by simp) hd)
    rw [hd, Nat.ofDigits_digits]

theorem decimal_injective {m n : Nat} (h : decimal m = decimal n) : m = n := by
  rw [← natOf_decimal m, h, natOf_decimal]

theorem decimal_digits (n : Nat) : ∀ u ∈ decimal n, isDigit u = true := by
  unfold decimal
  split
  · intro u hu
    rw [List.mem_singleton.mp hu]
    decide
  · intro u hu
    obtain ⟨d, hd, rfl⟩ := List.mem_map.mp hu
    exact isDigit_digitUnit (Nat.digits_lt_base (by simp) (List.mem_reverse.mp hd))

theorem decimal_ne_nil (n : Nat) : decimal n ≠ [] := by
  unfold decimal
  split
  · simp
  · simpa [Nat.digits_eq_nil_iff_eq_zero] using ‹¬ n = 0›

theorem decimal_length_le {n k : Nat} (hk : 0 < k) : (decimal n).length ≤ k ↔ n < 10 ^ k := by
  unfold decimal
  split
  · subst_vars
    simp only [List.length_singleton]
    exact ⟨fun _ => by positivity, fun _ => hk⟩
  · simp only [List.length_map, List.length_reverse]
    exact Nat.digits_length_le_iff (by simp) n

/-! ## Numbers without leading zeros -/

/-- `/^[1-9][0-9]{lo-1,hi-1}$/` -/
def isPosDigits (lo hi : Nat) (t : Text) : Bool :=
  match t with
  | [] => false
  | u :: _ => isDigit u && u != ch '0' && t.all isDigit && lo ≤ t.length && t.length ≤ hi

theorem isPosDigits_iff {lo hi : Nat} {t : Text} :
    isPosDigits lo hi t = true ↔
      (∃ u r, t = u :: r ∧ u ≠ ch '0') ∧ (∀ u ∈ t, isDigit u = true) ∧
        lo ≤ t.length ∧ t.length ≤ hi := by
  unfold isPosDigits
  cases t with
  | nil => simp
  | cons u r =>
    simp only [Bool.and_eq_true, List.all_eq_true, decide_eq_true_eq, bne_iff_ne, ne_eq,
      List.cons.injEq]
    constructor
    · rintro ⟨⟨⟨⟨_, h0⟩, hall⟩, hlo⟩, hhi⟩
      exact ⟨⟨u, r, ⟨rfl, rfl⟩, h0⟩, hall, hlo, hhi⟩
    · rintro ⟨⟨u', r', ⟨rfl, rfl⟩, h0⟩, hall, hlo, hhi⟩
      exact ⟨⟨⟨⟨hall _ (by simp), h0⟩, hall⟩, hlo⟩, hhi⟩

/-- A run of digits without a leading zero is the decimal notation of its number. -/
theorem decimal_natOf {lo hi : Nat} {t : Text} (h : isPosDigits lo hi t = true) :
    decimal (natOf t) = t ∧ 0 < natOf t := by
  obtain ⟨⟨u, r, rfl, hu⟩, hall, -, -⟩ := isPosDigits_iff.1 h
  have hlt : ∀ d ∈ ((u :: r).map unitDigit).reverse, d < 10 := by
    intro d hd
    obtain ⟨v, hv, rfl⟩ := List.mem_map.mp (List.mem_reverse.mp hd)
    exact unitDigit_lt (hall v hv)
  have hne : ((u :: r).map unitDigit).reverse ≠ [] := by simp
  have hlast : ((u :: r).map unitDigit).reverse.getLast hne ≠ 0 := by
    simp only [List.map_cons, List.reverse_cons, List.getLast_append_singleton]
    intro h0
    have hd := digitUnit_unitDigit (hall u (by simp))
    rw [h0] at hd
    exact hu (by rw [← hd]; rfl)
  have hdig := Nat.digits_ofDigits 10 (by simp) _ hlt (fun _ => hlast)
  have hpos : natOf (u :: r) ≠ 0 := by
    intro h0
    unfold natOf at h0
    rw [h0] at hdig
    simp at hdig
  refine ⟨?_, Nat.pos_of_ne_zero hpos⟩
  unfold decimal
  rw [if_neg hpos, natOf, hdig, List.reverse_reverse, List.map_map]
  conv_rhs => rw [← List.map_id (u :: r)]
  exact List.map_congr_left fun v hv => digitUnit_unitDigit (hall v hv)

/-- The decimal notation of a positive number below `10 ^ hi` has no leading zero. -/
theorem isPosDigits_decimal {lo hi n : Nat} (h0 : 0 < n) (hlo : lo ≤ (decimal n).length)
    (hhi : (decimal n).length ≤ hi) : isPosDigits lo hi (decimal n) = true := by
  refine isPosDigits_iff.2 ⟨?_, decimal_digits n, hlo, hhi⟩
  have hne : n ≠ 0 := by omega
  have hnil : Nat.digits 10 n ≠ [] := by simpa [Nat.digits_eq_nil_iff_eq_zero] using hne
  refine ⟨digitUnit ((Nat.digits 10 n).getLast hnil),
    ((Nat.digits 10 n).dropLast.reverse).map digitUnit, ?_, ?_⟩
  · unfold decimal
    rw [if_neg hne]
    conv_lhs => rw [← List.dropLast_append_getLast hnil]
    simp
  · intro h
    have hlast := Nat.getLast_digit_ne_zero 10 hne
    have hlt := Nat.digits_lt_base (by simp) (List.getLast_mem hnil)
    have hn := congrArg UInt16.toNat h
    rw [digitUnit_toNat hlt] at hn
    have h48 : (ch '0').toNat = 48 := by decide
    omega

theorem isPosDigits_mono {lo lo' hi hi' : Nat} {t : Text} (h : isPosDigits lo hi t = true)
    (hlo : lo' ≤ lo) (hhi : hi ≤ hi') : isPosDigits lo' hi' t = true := by
  rw [isPosDigits_iff] at h ⊢
  exact ⟨h.1, h.2.1, by omega, by omega⟩

end Js
