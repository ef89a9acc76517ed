-- Numbers in bytes, the lowest first, and records of numbers that are read back by the
-- place of their fields.
import Mathlib

namespace LittleEndian

/-- The lowest bytes of a number. -/
def le : ℕ → ℕ → List UInt8
  | 0, _ => []
  | w + 1, n => UInt8.ofNat (n % 256) :: le w (n / 256)

def value : List UInt8 → ℕ
  | [] => 0
  | b :: bs => b.toNat + 256 * value bs

@[simp] theorem length_le (w n : ℕ) : (le w n).length = w := by
  induction w generalizing n with
  | zero => rfl
  | succ w ih => rw [le, List.length_cons, ih]

/-- What does not fit is cut off. -/
theorem value_le (w n : ℕ) : value (le w n) = n % 256 ^ w := by
  induction w generalizing n with
  | zero => simp [le, value, Nat.mod_one]
  | succ w ih =>
    have hbyte : (UInt8.ofNat (n % 256)).toNat = n % 256 := by
      rw [UInt8.toNat_ofNat']
      omega
    rw [le, value, ih, hbyte, pow_succ', Nat.mod_mul]

/-- The number of a width at a place. -/
def field (bytes : List UInt8) (i w : ℕ) : ℕ := value ((bytes.drop i).take w)

theorem field_append (front : List UInt8) (w n : ℕ) (rest : List UInt8) :
    field (front ++ (le w n ++ rest)) front.length w = n % 256 ^ w := by
  unfold field
  rw [List.drop_left, List.take_append_of_le_length (by rw [length_le]), List.take_of_length_le (by
    rw [length_le]), value_le]

/-! ## Records -/

/-- The bytes of fields, each with its width. -/
def record (fields : List (ℕ × ℕ)) : List UInt8 := fields.flatMap fun f => le f.1 f.2

def width (fields : List (ℕ × ℕ)) : ℕ := (fields.map Prod.fst).sum

theorem length_record (fields : List (ℕ × ℕ)) : (record fields).length = width fields := by
  induction fields with
  | nil => rfl
  | cons f fields ih =>
    have hcons : record (f :: fields) = le f.1 f.2 ++ record fields := rfl
    rw [hcons, List.length_append, ih, length_le]
    rfl

/-- A field is read at the sum of the widths before it. -/
theorem field_record {fields : List (ℕ × ℕ)} {j w n : ℕ} (h : fields[j]? = some (w, n))
    {front rest : List UInt8} {i : ℕ} (hi : i = front.length + width (fields.take j)) :
    field (front ++ (record fields ++ rest)) i w = n % 256 ^ w := by
  obtain ⟨hj, hget⟩ := List.getElem?_eq_some_iff.mp h
  have hsplit : record fields =
      record (fields.take j) ++ (le w n ++ record (fields.drop (j + 1))) := by
    have hfields : fields = fields.take j ++ (w, n) :: fields.drop (j + 1) := by
      rw [← hget, List.cons_getElem_drop_succ, List.take_append_drop]
    conv_lhs => rw [hfields]
    unfold record
    rw [List.flatMap_append, List.flatMap_cons]
  have hlength : i = (front ++ record (fields.take j)).length := by
    rw [List.length_append, length_record, hi]
  rw [hsplit, List.append_assoc, List.append_assoc, ← List.append_assoc front, hlength]
  exact field_append _ w n _

/-- The bytes after a record. -/
theorem drop_record {fields : List (ℕ × ℕ)} {front rest : List UInt8} {i : ℕ}
    (hi : i = front.length + width fields) :
    (front ++ (record fields ++ rest)).drop i = rest := by
  have hlength : i = (front ++ record fields).length := by
    rw [List.length_append, length_record, hi]
  rw [← List.append_assoc, hlength, List.drop_left]

example : le 4 0x04034b50 = [0x50, 0x4b, 0x03, 0x04] := by decide

end LittleEndian
