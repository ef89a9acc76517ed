-- Texts whose lone surrogates have been replaced: what a reader of UTF-8 gets back of any
-- text, unit by unit.
import Klick.Utf8

namespace Js

/-- `t.toWellFormed()` -/
def toWellFormed : Text → Text
  | [] => []
  | [u] => [if isSurrogate u then replacement else u]
  | u :: v :: r =>
    if isHighSurrogate u && isLowSurrogate v then u :: v :: toWellFormed r
    else (if isSurrogate u then replacement else u) :: toWellFormed (v :: r)

/-- A unit that is kept, or a surrogate that is replaced. -/
def KeptOr (u v : UInt16) : Prop := v = u ∨ (isSurrogate u = true ∧ v = replacement)

theorem keptOr_unit (u : UInt16) : KeptOr u (if isSurrogate u then replacement else u) := by
  by_cases hu : isSurrogate u = true
  · rw [if_pos hu]
    exact .inr ⟨hu, rfl⟩
  · rw [if_neg hu]
    exact .inl rfl

theorem forall₂_toWellFormed (t : Text) : List.Forall₂ KeptOr t (toWellFormed t) := by
  fun_induction toWellFormed t with
  | case1 => exact .nil
  | case2 u => exact .cons (keptOr_unit u) .nil
  | case3 u v r _ ih => exact .cons (.inl rfl) (.cons (.inl rfl) ih)
  | case4 u v r _ ih => exact .cons (keptOr_unit u) ih

theorem isSurrogate_unit (u : UInt16) :
    isSurrogate (if isSurrogate u then replacement else u) = false := by
  by_cases hu : isSurrogate u = true
  · rw [if_pos hu]
    decide
  · rw [if_neg hu]
    simpa using hu

theorem paired_toWellFormed (t : Text) : Paired (toWellFormed t) := by
  fun_induction toWellFormed t with
  | case1 => exact .nil
  | case2 u => exact .unit (isSurrogate_unit u) .nil
  | case3 u v r h ih =>
    rw [Bool.and_eq_true] at h
    exact .pair h.1 h.2 ih
  | case4 u v r _ ih => exact .unit (isSurrogate_unit u) ih

theorem utf8Unit_replaced (u : UInt16) :
    utf8Unit (if isSurrogate u then replacement else u) = utf8Unit u := by
  by_cases hu : isSurrogate u = true
  · have hrange : 0xd800 ≤ u.toNat := by
      simp only [isSurrogate, isHighSurrogate, isLowSurrogate, Bool.or_eq_true, Bool.and_eq_true,
        decide_eq_true_eq] at hu
      omega
    rw [if_pos hu]
    unfold utf8Unit
    rw [if_neg (show ¬ u.toNat < 0x80 by omega), if_neg (show ¬ u.toNat < 0x800 by omega), if_pos hu]
    decide
  · rw [if_neg hu]

/-- The bytes of a text do not show which surrogates were replaced. -/
theorem utf8_toWellFormed (t : Text) : utf8 (toWellFormed t) = utf8 t := by
  fun_induction toWellFormed t with
  | case1 => rfl
  | case2 u =>
    rw [utf8_unit (isSurrogate_unit u), utf8Unit_replaced]
    simp [utf8]
  | case3 u v r h ih =>
    rw [Bool.and_eq_true] at h
    rw [utf8_pair h.1 h.2, utf8_pair h.1 h.2, ih]
  | case4 u v r h ih =>
    rw [utf8_unit (isSurrogate_unit u), utf8Unit_replaced, ih]
    simp [utf8, h]

/-- What is read of the bytes of any text. -/
theorem utf8Decode_utf8_eq (t : Text) : utf8Decode (utf8 t) = toWellFormed t := by
  rw [← utf8_toWellFormed, utf8Decode_utf8 (paired_toWellFormed t)]

theorem toWellFormed_of_paired {t : Text} (h : Paired t) : toWellFormed t = t := by
  rw [← utf8Decode_utf8_eq, utf8Decode_utf8 h]

/-! ## Separators -/

/-- No part of a split text has the separator. -/
theorem notMem_of_mem_splitOn {sep : UInt16} {t p : Text} (h : p ∈ t.splitOn sep) : sep ∉ p := by
  induction t generalizing p with
  | nil =>
    rw [List.splitOn_nil, List.mem_singleton] at h
    rw [h]
    exact List.not_mem_nil
  | cons u t ih =>
    rw [List.splitOn_cons_eq_if_modifyHead] at h
    by_cases hu : (u == sep) = true
    · rw [if_pos hu] at h
      rcases List.mem_cons.mp h with rfl | h
      · exact List.not_mem_nil
      · exact ih h
    · rw [if_neg hu] at h
      cases hparts : t.splitOn sep with
      | nil =>
        rw [hparts] at h
        exact absurd h List.not_mem_nil
      | cons q qs =>
        rw [hparts, List.modifyHead_cons] at h
        have hq : sep ∉ q := ih (by rw [hparts]; exact List.mem_cons_self)
        rcases List.mem_cons.mp h with rfl | h
        · rw [List.mem_cons, not_or]
          exact ⟨fun heq => hu (by simp [heq]), hq⟩
        · exact ih (by rw [hparts]; exact List.mem_cons_of_mem q h)

/-- A separator that is no surrogate splits both texts at the same places. -/
theorem forall₂_splitOn {R : UInt16 → UInt16 → Prop} {sep : UInt16}
    (hsep : ∀ u v, R u v → (u = sep ↔ v = sep)) {s t : Text} (h : List.Forall₂ R s t) :
    List.Forall₂ (List.Forall₂ R) (s.splitOn sep) (t.splitOn sep) := by
  induction h with
  | nil =>
    rw [List.splitOn_nil]
    exact .cons .nil .nil
  | @cons u v s t huv h ih =>
    unfold List.splitOn at ih ⊢
    rw [List.splitOnP_cons_eq_if_modifyHead, List.splitOnP_cons_eq_if_modifyHead]
    by_cases hu : u = sep
    · have hv := (hsep u v huv).mp hu
      rw [if_pos (by simp [hu]), if_pos (by simp [hv])]
      exact .cons .nil ih
    · have hv : v ≠ sep := fun hv => hu ((hsep u v huv).mpr hv)
      rw [if_neg (by simp [hu]), if_neg (by simp [hv])]
      generalize s.splitOnP (· == sep) = parts, t.splitOnP (· == sep) = parts' at ih ⊢
      cases ih with
      | nil => exact .nil
      | cons hhead htail => exact .cons (.cons huv hhead) htail

theorem keptOr_iff {u v sep : UInt16} (hsep : isSurrogate sep = false) (hne : sep ≠ replacement)
    (h : KeptOr u v) : u = sep ↔ v = sep := by
  rcases h with rfl | ⟨hu, rfl⟩
  · exact Iff.rfl
  · constructor
    · rintro rfl
      rw [hsep] at hu
      cases hu
    · intro heq
      exact absurd heq.symm hne

/-- A text without surrogates and replacements is kept, and nothing else becomes it. -/
theorem forall₂_keptOr_iff {s t w : Text}
    (hw : ∀ u ∈ w, isSurrogate u = false ∧ u ≠ replacement) (h : List.Forall₂ KeptOr s t) :
    s = w ↔ t = w := by
  induction h generalizing w with
  | nil => exact Iff.rfl
  | @cons u v s t huv h ih =>
    cases w with
    | nil => simp
    | cons a w =>
      obtain ⟨ha, hrest⟩ := List.forall_mem_cons.mp hw
      rw [List.cons.injEq, List.cons.injEq, keptOr_iff ha.1 ha.2 huv, ih hrest]

end Js
