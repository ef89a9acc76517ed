-- Lower case, blanks around a text and the last place of a sign: what programs do to
-- addresses and names before they compare them.
import Klick.Coercion

namespace Js

/-! ## Lower case -/

/-- Signs that have no case and that no letter becomes. -/
def IsSeparator (u : UInt16) : Prop := u = ch '@' ∨ u = ch ','

/-- `toLowerCase`: what the rules rely on. The mapping itself is the table of Unicode. -/
structure LowerCase where
  lower : Text → Text
  lower_lower : ∀ t, lower (lower t) = lower t
  /-- What stands on the one side of a separator does not matter on the other. -/
  lower_append : ∀ s t u, IsSeparator u → lower (s ++ u :: t) = lower s ++ u :: lower t
  mem_lower : ∀ t u, IsSeparator u → u ∈ lower t → u ∈ t
  /-- Blanks have no case either. -/
  lower_trim : ∀ t, lower (trim t) = trim (lower t)
  trimmed : ∀ t, trim (lower t) = lower t → trim t = t
  lower_eq_nil : ∀ t, lower t = [] → t = []

/-- A capital letter of ASCII in lower case. -/
def lowerUnit (u : UInt16) : UInt16 :=
  if 65 ≤ u.toNat && u.toNat ≤ 90 then UInt16.ofNat (u.toNat + 32) else u

def lowerAscii (t : Text) : Text := t.map lowerUnit

/-- `t.lastIndexOf(u)`, if it is not -1. -/
def lastIndexOf (u : UInt16) (t : Text) : Option ℕ :=
  (t.reverse.idxOf? u).map fun i => t.length - 1 - i

/-- `t.slice(t.lastIndexOf(u) + 1)` -/
def afterLast (u : UInt16) (t : Text) : Text :=
  match lastIndexOf u t with
  | some i => t.drop (i + 1)
  | none => t

theorem lastIndexOf_append {u : UInt16} (s : Text) {t : Text} (ht : u ∉ t) :
    lastIndexOf u (s ++ u :: t) = some s.length := by
  have hidx : (s ++ u :: t).reverse.idxOf? u = some t.length := by
    rw [List.reverse_append, List.reverse_cons, List.append_assoc, List.idxOf?_eq_some_iff]
    refine ⟨by simp, ?_, ?_⟩
    · rw [List.getElem_append_right (by simp)]
      simp
    · intro j hj
      rw [List.getElem_append_left (by simpa using hj)]
      intro heq
      apply ht
      rw [← heq]
      exact List.mem_reverse.mp (List.getElem_mem _)
  unfold lastIndexOf
  rw [hidx, Option.map_some, List.length_append, List.length_cons]
  congr 1
  omega

theorem lastIndexOf_eq_none {u : UInt16} {t : Text} (h : u ∉ t) : lastIndexOf u t = none := by
  unfold lastIndexOf
  rw [List.idxOf?_eq_none_iff.mpr (by simpa using h)]
  rfl

theorem afterLast_append {u : UInt16} (s : Text) {t : Text} (ht : u ∉ t) :
    afterLast u (s ++ u :: t) = t := by
  unfold afterLast
  rw [lastIndexOf_append s ht]
  simp

/-! ## Blanks -/

theorem trim_eq_self {t : Text} (h : ∀ u ∈ t, isTrimmed u = false) : trim t = t := by
  unfold trim
  have hfront : t.dropWhile isTrimmed = t := by
    cases t with
    | nil => rfl
    | cons a t => rw [List.dropWhile_cons_of_neg (by simp [h a List.mem_cons_self])]
  rw [hfront]
  have hback : t.reverse.dropWhile isTrimmed = t.reverse := by
    cases ht : t.reverse with
    | nil => rfl
    | cons a r =>
      have ha : a ∈ t := List.mem_reverse.mp (ht ▸ List.mem_cons_self)
      rw [List.dropWhile_cons_of_neg (by simp [h a ha])]
  rw [hback, List.reverse_reverse]

theorem trim_sublist (t : Text) : (trim t).Sublist t := by
  unfold trim
  have h1 := List.dropWhile_sublist (l := t) isTrimmed
  have h2 := (List.dropWhile_sublist (l := (t.dropWhile isTrimmed).reverse) isTrimmed).reverse
  rw [List.reverse_reverse] at h2
  exact h2.trans h1

theorem trim_blank_append {b : Text} (hb : ∀ u ∈ b, isTrimmed u = true) (t : Text) :
    trim (b ++ t) = trim t := by
  unfold trim
  rw [List.dropWhile_append_of_pos hb]

theorem trim_append_blank {b : Text} (hb : ∀ u ∈ b, isTrimmed u = true) (t : Text) :
    trim (t ++ b) = trim t := by
  unfold trim
  by_cases ht : t.dropWhile isTrimmed = []
  · have hall : ∀ u ∈ t ++ b, isTrimmed u = true := by
      intro u hu
      rcases List.mem_append.mp hu with hu | hu
      · exact List.dropWhile_eq_nil_iff.mp ht u hu
      · exact hb u hu
    rw [List.dropWhile_eq_nil_iff.mpr hall, ht]
  · rw [List.dropWhile_append, if_neg (by simpa using ht), List.reverse_append,
      List.dropWhile_append_of_pos fun u hu => hb u (List.mem_reverse.mp hu)]

/-- A text is what is left of it between blanks. -/
theorem exists_blanks (t : Text) : ∃ b a, (∀ u ∈ b, isTrimmed u = true) ∧
    (∀ u ∈ a, isTrimmed u = true) ∧ t = b ++ (trim t ++ a) := by
  refine ⟨t.takeWhile isTrimmed,
    ((t.dropWhile isTrimmed).reverse.takeWhile isTrimmed).reverse, ?_, ?_, ?_⟩
  · exact fun u hu => List.mem_takeWhile_imp hu
  · exact fun u hu => List.mem_takeWhile_imp (List.mem_reverse.mp hu)
  · unfold trim
    rw [← List.reverse_append, List.takeWhile_append_dropWhile, List.reverse_reverse,
      List.takeWhile_append_dropWhile]

/-- What begins and ends without a blank has none to take off. -/
theorem trim_ends {u v : UInt16} {t : Text} (hu : isTrimmed u = false) (hv : isTrimmed v = false) :
    trim (u :: (t ++ [v])) = u :: (t ++ [v]) := by
  unfold trim
  rw [List.dropWhile_cons_of_neg (by simp [hu]), ← List.cons_append, List.reverse_append,
    List.reverse_singleton, List.singleton_append, List.dropWhile_cons_of_neg (by simp [hv]),
    List.reverse_cons, List.reverse_reverse]

theorem trim_eq_nil_iff {t : Text} : trim t = [] ↔ ∀ u ∈ t, isTrimmed u = true := by
  constructor
  · intro h u hu
    obtain ⟨b, a, hb, ha, heq⟩ := exists_blanks t
    rw [heq, h, List.nil_append] at hu
    rcases List.mem_append.mp hu with hu | hu
    · exact hb u hu
    · exact ha u hu
  · intro h
    have hblank := trim_blank_append h []
    rw [List.append_nil] at hblank
    exact hblank

/-- What is no blank stays in a text that is trimmed. -/
theorem mem_trim {t : Text} {u : UInt16} (hu : isTrimmed u = false) : u ∈ trim t ↔ u ∈ t := by
  have hdrop : ∀ l : Text, u ∈ l → u ∈ l.dropWhile isTrimmed := by
    intro l hl
    rw [← List.takeWhile_append_dropWhile (p := isTrimmed) (l := l)] at hl
    rcases List.mem_append.mp hl with hl | hl
    · rw [List.mem_takeWhile_imp hl] at hu
      cases hu
    · exact hl
  constructor
  · exact fun h => (trim_sublist t).subset h
  · intro h
    unfold trim
    rw [List.mem_reverse]
    exact hdrop _ (List.mem_reverse.mpr (hdrop t h))

/-! ## ASCII -/

theorem isTrimmed_visible {u : UInt16} (hlo : 33 ≤ u.toNat) (hhi : u.toNat ≤ 126) :
    isTrimmed u = false := by
  have hlist : u.toNat ∉ [0x20, 0xa0, 0x1680, 0x2028, 0x2029, 0x202f, 0x205f, 0x3000, 0xfeff] := by
    intro h
    simp only [List.mem_cons, List.not_mem_nil, or_false] at h
    omega
  have hleft : ¬ (9 ≤ u.toNat ∧ u.toNat ≤ 13) := by omega
  have hright : ¬ (0x2000 ≤ u.toNat ∧ u.toNat ≤ 0x200a) := by omega
  rw [isTrimmed, decide_eq_false hlist, Bool.or_false, Bool.or_eq_false_iff]
  exact ⟨by simpa using hleft, by simpa using hright⟩

theorem lowerUnit_cases (u : UInt16) :
    ((lowerUnit u).toNat = u.toNat + 32 ∧ 65 ≤ u.toNat ∧ u.toNat ≤ 90) ∨
      (lowerUnit u = u ∧ ¬ (65 ≤ u.toNat ∧ u.toNat ≤ 90)) := by
  unfold lowerUnit
  by_cases hu : 65 ≤ u.toNat ∧ u.toNat ≤ 90
  · left
    rw [if_pos (by simpa using hu), UInt16.toNat_ofNat']
    omega
  · right
    rw [if_neg (by simpa using hu)]
    exact ⟨rfl, hu⟩

theorem isTrimmed_lowerUnit (u : UInt16) : isTrimmed (lowerUnit u) = isTrimmed u := by
  rcases lowerUnit_cases u with ⟨hnat, hlo, hhi⟩ | ⟨heq, -⟩
  · rw [isTrimmed_visible (by omega) (by omega), isTrimmed_visible (u := u) (by omega) (by omega)]
  · rw [heq]

theorem lowerUnit_lowerUnit (u : UInt16) : lowerUnit (lowerUnit u) = lowerUnit u := by
  rcases lowerUnit_cases (lowerUnit u) with ⟨-, hlo, hhi⟩ | ⟨heq, -⟩
  · rcases lowerUnit_cases u with ⟨hnat, hcap, -⟩ | ⟨heq, hnot⟩
    · omega
    · rw [heq] at hlo hhi
      exact absurd ⟨hlo, hhi⟩ hnot
  · exact heq

theorem lowerUnit_separator {u : UInt16} (h : IsSeparator u) : lowerUnit u = u := by
  rcases h with rfl | rfl <;> decide

theorem eq_of_lowerUnit {u v : UInt16} (hu : IsSeparator u) (h : lowerUnit v = u) : v = u := by
  rcases lowerUnit_cases v with ⟨hnat, hlo, hhi⟩ | ⟨heq, -⟩
  · rw [h] at hnat
    have hcode : u.toNat = 64 ∨ u.toNat = 44 := by
      rcases hu with rfl | rfl
      · exact .inl (by decide)
      · exact .inr (by decide)
    omega
  · rw [← heq, h]

theorem trim_map {f : UInt16 → UInt16} (hf : ∀ u, isTrimmed (f u) = isTrimmed u) (t : Text) :
    trim (t.map f) = (trim t).map f := by
  have hcomp : isTrimmed ∘ f = isTrimmed := funext hf
  unfold trim
  rw [List.dropWhile_map, hcomp, ← List.map_reverse, List.dropWhile_map, hcomp,
    ← List.map_reverse]

/-- `toLowerCase` on texts of ASCII. -/
def asciiCase : LowerCase where
  lower := lowerAscii
  lower_lower t := by
    unfold lowerAscii
    rw [List.map_map]
    exact List.map_congr_left fun u _ => lowerUnit_lowerUnit u
  lower_append s t u hu := by
    rw [lowerAscii, List.map_append, List.map_cons, lowerUnit_separator hu]
    rfl
  mem_lower t u hu h := by
    obtain ⟨v, hv, heq⟩ := List.mem_map.mp h
    rwa [← eq_of_lowerUnit hu heq]
  lower_trim t := (trim_map isTrimmed_lowerUnit t).symm
  trimmed t h := by
    rw [lowerAscii, trim_map isTrimmed_lowerUnit] at h
    have hlen : (trim t).length = t.length := by
      rw [← List.length_map lowerUnit, h, List.length_map]
    exact (trim_sublist t).eq_of_length hlen
  lower_eq_nil t h := List.map_eq_nil_iff.mp h

end Js
