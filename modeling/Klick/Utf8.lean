-- UTF-8 as Node writes and reads it: a lone surrogate is written as U+FFFD,
-- and each malformed part of the bytes is read as one U+FFFD.
import Klick.Json

namespace Js

abbrev Bytes := List UInt8

/-- A byte from its value. -/
def byte (n : Nat) : UInt8 := UInt8.ofNat n

/-- U+FFFD -/
def replacement : UInt16 := 0xfffd

/-! ## Writing -/

def isSurrogate (u : UInt16) : Bool := isHighSurrogate u || isLowSurrogate u

/-- The bytes of a code unit that is no half of a surrogate pair. -/
def utf8Unit (u : UInt16) : Bytes :=
  if u.toNat < 0x80 then [byte u.toNat]
  else if u.toNat < 0x800 then [byte (0xc0 + u.toNat / 64), byte (0x80 + u.toNat % 64)]
  else if isSurrogate u then [0xef, 0xbf, 0xbd]
  else [byte (0xe0 + u.toNat / 4096), byte (0x80 + u.toNat / 64 % 64), byte (0x80 + u.toNat % 64)]

/-- The code point of a surrogate pair. -/
def pairValue (u v : UInt16) : Nat := 0x10000 + (u.toNat - 0xd800) * 1024 + (v.toNat - 0xdc00)

/-- The bytes of a surrogate pair. -/
def utf8Pair (u v : UInt16) : Bytes :=
  [byte (0xf0 + pairValue u v / 262144), byte (0x80 + pairValue u v / 4096 % 64),
    byte (0x80 + pairValue u v / 64 % 64), byte (0x80 + pairValue u v % 64)]

/-- `Buffer.from(t, "utf8")` -/
def utf8 : Text → Bytes
  | [] => []
  | [u] => utf8Unit u
  | u :: v :: r =>
    if isHighSurrogate u && isLowSurrogate v then utf8Pair u v ++ utf8 r
    else utf8Unit u ++ utf8 (v :: r)

/-! ## Reading -/

/-- A character begun: how many bytes it lacks, the bounds of the next one,
and the value of the bytes so far. -/
structure Pending where
  needed : Nat
  lower : Nat
  upper : Nat
  value : Nat
deriving DecidableEq, Repr

/-- The code units of a code point. -/
def unitsOf (n : Nat) : Text :=
  if n < 0x10000 then [UInt16.ofNat n]
  else [UInt16.ofNat (0xd800 + (n - 0x10000) / 1024), UInt16.ofNat (0xdc00 + (n - 0x10000) % 1024)]

/-- A byte between two characters: what it gives, and what it begins. -/
def firstByte (b : Nat) : Text × Option Pending :=
  if b < 0x80 then ([UInt16.ofNat b], none)
  else if b < 0xc2 then ([replacement], none)
  else if b < 0xe0 then ([], some ⟨1, 0x80, 0xbf, b - 0xc0⟩)
  else if b < 0xf0 then
    ([], some ⟨2, if b = 0xe0 then 0xa0 else 0x80, if b = 0xed then 0x9f else 0xbf, b - 0xe0⟩)
  else if b < 0xf5 then
    ([], some ⟨3, if b = 0xf0 then 0x90 else 0x80, if b = 0xf4 then 0x8f else 0xbf, b - 0xf0⟩)
  else ([replacement], none)

/-- One byte. A byte out of bounds ends the character begun and is read again. -/
def nextByte (s : Option Pending) (b : Nat) : Text × Option Pending :=
  match s with
  | none => firstByte b
  | some p =>
    if p.lower ≤ b ∧ b ≤ p.upper then
      if p.needed = 1 then (unitsOf (p.value * 64 + (b - 0x80)), none)
      else ([], some ⟨p.needed - 1, 0x80, 0xbf, p.value * 64 + (b - 0x80)⟩)
    else (replacement :: (firstByte b).1, (firstByte b).2)

def decodeFrom (s : Option Pending) : Bytes → Text
  | [] => if s.isSome then [replacement] else []
  | b :: r => (nextByte s b.toNat).1 ++ decodeFrom (nextByte s b.toNat).2 r

/-- `buffer.toString("utf8")` -/
def utf8Decode (bs : Bytes) : Text := decodeFrom none bs

/-! ## Texts without lone surrogates -/

/-- Each surrogate stands in a pair. -/
inductive Paired : Text → Prop
  | nil : Paired []
  | unit {u : UInt16} {r : Text} : isSurrogate u = false → Paired r → Paired (u :: r)
  | pair {u v : UInt16} {r : Text} : isHighSurrogate u = true → isLowSurrogate v = true →
      Paired r → Paired (u :: v :: r)

theorem Paired.append {s t : Text} (hs : Paired s) (ht : Paired t) : Paired (s ++ t) := by
  induction hs with
  | nil => exact ht
  | unit hu _ ih => exact .unit hu ih
  | pair hu hv _ ih => exact .pair hu hv ih

theorem utf8_unit {u : UInt16} (hu : isSurrogate u = false) (r : Text) :
    utf8 (u :: r) = utf8Unit u ++ utf8 r := by
  cases r with
  | nil => simp [utf8]
  | cons v r =>
    have hh : isHighSurrogate u = false := by
      unfold isSurrogate at hu
      exact (Bool.or_eq_false_iff.mp hu).1
    simp [utf8, hh]

theorem utf8_pair {u v : UInt16} (hu : isHighSurrogate u = true) (hv : isLowSurrogate v = true)
    (r : Text) : utf8 (u :: v :: r) = utf8Pair u v ++ utf8 r := by
  simp [utf8, hu, hv]

theorem utf8_append {s : Text} (hs : Paired s) (t : Text) : utf8 (s ++ t) = utf8 s ++ utf8 t := by
  induction hs with
  | nil => rfl
  | unit hu _ ih => rw [List.cons_append, utf8_unit hu, utf8_unit hu, ih, List.append_assoc]
  | pair hu hv _ ih =>
    rw [List.cons_append, List.cons_append, utf8_pair hu hv, utf8_pair hu hv, ih,
      List.append_assoc]

/-! ## The first character of the bytes -/

theorem byte_toNat {n : Nat} (h : n < 256) : (byte n).toNat = n := by
  simp only [byte, UInt8.toNat_ofNat']
  omega

theorem decodeFrom_pending {p : Pending} {n : Nat} (hn : n < 256) (h : p.lower ≤ n ∧ n ≤ p.upper)
    (r : Bytes) : decodeFrom (some p) (byte n :: r) =
      if p.needed = 1 then unitsOf (p.value * 64 + (n - 0x80)) ++ decodeFrom none r
      else decodeFrom (some ⟨p.needed - 1, 0x80, 0xbf, p.value * 64 + (n - 0x80)⟩) r := by
  rw [decodeFrom, byte_toNat hn, nextByte, if_pos h]
  by_cases h1 : p.needed = 1
  · rw [if_pos h1, if_pos h1]
  · rw [if_neg h1, if_neg h1, List.nil_append]

theorem decodeFrom_first {n : Nat} (hn : n < 256) {s : Option Pending}
    (h : firstByte n = ([], s)) (r : Bytes) :
    decodeFrom none (byte n :: r) = decodeFrom s r := by
  simp only [decodeFrom, byte_toNat hn, nextByte, h, List.nil_append]

/-- The bytes of a character are read back, and a proper part of them is
read as one U+FFFD. -/
def ReadsBack (t : Text) (bs : Bytes) : Prop :=
  (∀ r, decodeFrom none (bs ++ r) = t ++ decodeFrom none r) ∧
    ∀ k, 0 < k → k < bs.length → decodeFrom none (bs.take k) = [replacement]

theorem readsBack_two {n : Nat} (h1 : 0x80 ≤ n) (h2 : n < 0x800) :
    ReadsBack [UInt16.ofNat n] [byte (0xc0 + n / 64), byte (0x80 + n % 64)] := by
  have hf : firstByte (0xc0 + n / 64) = ([], some ⟨1, 0x80, 0xbf, n / 64⟩) := by
    unfold firstByte
    rw [if_neg (by omega), if_neg (by omega), if_pos (by omega)]
    simp
  have hv : n / 64 * 64 + (0x80 + n % 64 - 0x80) = n := by omega
  constructor
  · intro r
    rw [List.cons_append, List.cons_append, List.nil_append, decodeFrom_first (by omega) hf,
      decodeFrom_pending (by omega) ⟨by simp, by simp; omega⟩]
    simp only [if_true, hv, unitsOf, show n < 0x10000 by omega]
  · intro k hk hlt
    obtain rfl : k = 1 := by simp at hlt; omega
    rw [List.take_succ_cons, List.take_zero, decodeFrom_first (by omega) hf]
    rfl

theorem readsBack_three {n : Nat} (h1 : 0x800 ≤ n) (h2 : n < 0x10000)
    (hs : n < 0xd800 ∨ 0xdfff < n) :
    ReadsBack [UInt16.ofNat n]
      [byte (0xe0 + n / 4096), byte (0x80 + n / 64 % 64), byte (0x80 + n % 64)] := by
  obtain ⟨lo, hi, hf, hb⟩ : ∃ lo hi, firstByte (0xe0 + n / 4096) =
      ([], some ⟨2, lo, hi, n / 4096⟩) ∧ lo ≤ 0x80 + n / 64 % 64 ∧ 0x80 + n / 64 % 64 ≤ hi := by
    refine ⟨if 0xe0 + n / 4096 = 0xe0 then 0xa0 else 0x80,
      if 0xe0 + n / 4096 = 0xed then 0x9f else 0xbf, ?_, ?_, ?_⟩
    · unfold firstByte
      rw [if_neg (by omega), if_neg (by omega), if_neg (by omega), if_pos (by omega),
        Nat.add_sub_cancel_left]
    · split <;> omega
    · split <;> omega
  have hv : (n / 4096 * 64 + (0x80 + n / 64 % 64 - 0x80)) * 64 + (0x80 + n % 64 - 0x80) = n := by
    omega
  have hsecond : ∀ r, decodeFrom none (byte (0xe0 + n / 4096) :: byte (0x80 + n / 64 % 64) :: r) =
      decodeFrom (some ⟨1, 0x80, 0xbf, n / 4096 * 64 + (0x80 + n / 64 % 64 - 0x80)⟩) r := by
    intro r
    rw [decodeFrom_first (by omega) hf, decodeFrom_pending (by omega) hb]
    simp
  constructor
  · intro r
    rw [List.cons_append, List.cons_append, List.cons_append, List.nil_append, hsecond,
      decodeFrom_pending (by omega) ⟨by simp, by simp; omega⟩]
    simp only [if_true, hv, unitsOf, h2]
  · intro k hk hlt
    simp only [List.length_cons, List.length_nil] at hlt
    obtain rfl | rfl : k = 1 ∨ k = 2 := by omega
    · rw [List.take_succ_cons, List.take_zero, decodeFrom_first (by omega) hf]
      rfl
    · rw [List.take_succ_cons, List.take_succ_cons, List.take_zero, hsecond]
      rfl

theorem readsBack_four {n : Nat} (h1 : 0x10000 ≤ n) (h2 : n < 0x110000) :
    ReadsBack (unitsOf n)
      [byte (0xf0 + n / 262144), byte (0x80 + n / 4096 % 64), byte (0x80 + n / 64 % 64),
        byte (0x80 + n % 64)] := by
  obtain ⟨lo, hi, hf, hb⟩ : ∃ lo hi, firstByte (0xf0 + n / 262144) =
      ([], some ⟨3, lo, hi, n / 262144⟩) ∧
        lo ≤ 0x80 + n / 4096 % 64 ∧ 0x80 + n / 4096 % 64 ≤ hi := by
    refine ⟨if 0xf0 + n / 262144 = 0xf0 then 0x90 else 0x80,
      if 0xf0 + n / 262144 = 0xf4 then 0x8f else 0xbf, ?_, ?_, ?_⟩
    · unfold firstByte
      rw [if_neg (by omega), if_neg (by omega), if_neg (by omega), if_neg (by omega),
        if_pos (by omega), Nat.add_sub_cancel_left]
    · split <;> omega
    · split <;> omega
  have hv : ((n / 262144 * 64 + (0x80 + n / 4096 % 64 - 0x80)) * 64 +
      (0x80 + n / 64 % 64 - 0x80)) * 64 + (0x80 + n % 64 - 0x80) = n := by omega
  have hsecond : ∀ r,
      decodeFrom none (byte (0xf0 + n / 262144) :: byte (0x80 + n / 4096 % 64) :: r) =
        decodeFrom (some ⟨2, 0x80, 0xbf, n / 262144 * 64 + (0x80 + n / 4096 % 64 - 0x80)⟩) r := by
    intro r
    rw [decodeFrom_first (by omega) hf, decodeFrom_pending (by omega) hb]
    simp
  have hthird : ∀ r, decodeFrom none (byte (0xf0 + n / 262144) :: byte (0x80 + n / 4096 % 64) ::
      byte (0x80 + n / 64 % 64) :: r) = decodeFrom (some ⟨1, 0x80, 0xbf,
        (n / 262144 * 64 + (0x80 + n / 4096 % 64 - 0x80)) * 64 +
          (0x80 + n / 64 % 64 - 0x80)⟩) r := by
    intro r
    rw [hsecond, decodeFrom_pending (by omega) ⟨by simp, by simp; omega⟩]
    simp
  constructor
  · intro r
    rw [List.cons_append, List.cons_append, List.cons_append, List.cons_append, List.nil_append,
      hthird, decodeFrom_pending (by omega) ⟨by simp, by simp; omega⟩]
    simp only [if_true, hv]
  · intro k hk hlt
    simp only [List.length_cons, List.length_nil] at hlt
    obtain rfl | rfl | rfl : k = 1 ∨ k = 2 ∨ k = 3 := by omega
    · rw [List.take_succ_cons, List.take_zero, decodeFrom_first (by omega) hf]
      rfl
    · rw [List.take_succ_cons, List.take_succ_cons, List.take_zero, hsecond]
      rfl
    · rw [List.take_succ_cons, List.take_succ_cons, List.take_succ_cons, List.take_zero, hthird]
      rfl

theorem readsBack_unit {u : UInt16} (hu : isSurrogate u = false) :
    ReadsBack [u] (utf8Unit u) := by
  have hlt := u.toNat_lt
  have hs : u.toNat < 0xd800 ∨ 0xdfff < u.toNat := by
    simp only [isSurrogate, isHighSurrogate, isLowSurrogate, Bool.or_eq_false_iff,
      Bool.and_eq_false_iff, decide_eq_false_iff_not] at hu
    omega
  have hof : UInt16.ofNat u.toNat = u := UInt16.ofNat_toNat
  unfold utf8Unit
  split_ifs with h1 h2 h3
  · constructor
    · intro r
      simp only [List.cons_append, List.nil_append, decodeFrom, nextByte, firstByte,
        byte_toNat (by omega : u.toNat < 256), h1, if_true, hof]
    · intro k hk hlt
      simp only [List.length_cons, List.length_nil] at hlt
      omega
  · simpa [hof] using readsBack_two (n := u.toNat) (by omega) h2
  · exact absurd hu (by simp [h3])
  · simpa [hof] using readsBack_three (n := u.toNat) (by omega) hlt hs

theorem readsBack_pair {u v : UInt16} (hu : isHighSurrogate u = true)
    (hv : isLowSurrogate v = true) : ReadsBack [u, v] (utf8Pair u v) := by
  simp only [isHighSurrogate, isLowSurrogate, Bool.and_eq_true, decide_eq_true_eq] at hu hv
  have hn : pairValue u v = 0x10000 + (u.toNat - 0xd800) * 1024 + (v.toNat - 0xdc00) := rfl
  have hunits : unitsOf (pairValue u v) = [u, v] := by
    unfold unitsOf
    have h1 : 0xd800 + (pairValue u v - 0x10000) / 1024 = u.toNat := by omega
    have h2 : 0xdc00 + (pairValue u v - 0x10000) % 1024 = v.toNat := by omega
    rw [if_neg (by omega), h1, h2, UInt16.ofNat_toNat, UInt16.ofNat_toNat]
  rw [← hunits]
  exact readsBack_four (by omega) (by omega)

/-! ## Reading a part of the bytes -/

/-- A text without lone surrogates is read back before any bytes. -/
theorem utf8Decode_append {t : Text} (h : Paired t) (bs : Bytes) :
    utf8Decode (utf8 t ++ bs) = t ++ utf8Decode bs := by
  unfold utf8Decode
  induction h with
  | nil => rfl
  | unit hu _ ih => rw [utf8_unit hu, List.append_assoc, (readsBack_unit hu).1, ih]; rfl
  | pair hu hv _ ih => rw [utf8_pair hu hv, List.append_assoc, (readsBack_pair hu hv).1, ih]; rfl

theorem utf8Decode_utf8 {t : Text} (h : Paired t) : utf8Decode (utf8 t) = t := by
  have := utf8Decode_append h []
  rwa [List.append_nil, show utf8Decode [] = [] from rfl, List.append_nil] at this

theorem utf8_injective {s t : Text} (hs : Paired s) (ht : Paired t) (h : utf8 s = utf8 t) :
    s = t := by
  rw [← utf8Decode_utf8 hs, h, utf8Decode_utf8 ht]

/-- Bytes cut anywhere: the characters before the cut are read back, and
one that the cut falls into gives one U+FFFD. -/
theorem utf8Decode_take {t : Text} (h : Paired t) (k : Nat) :
    ∃ s r p, t = s ++ r ∧ Paired s ∧ Paired r ∧ (utf8 t).take k = utf8 s ++ p ∧
      utf8Decode ((utf8 t).take k) = s ++ (if p = [] then [] else [replacement]) := by
  have extend : ∀ {c r' : Text} {bs : Bytes}, ReadsBack c bs → Paired c → Paired r' →
      utf8 (c ++ r') = bs ++ utf8 r' → utf8 c = bs → bs ≠ [] →
      (∀ k, ∃ s r p, r' = s ++ r ∧ Paired s ∧ Paired r ∧ (utf8 r').take k = utf8 s ++ p ∧
        utf8Decode ((utf8 r').take k) = s ++ (if p = [] then [] else [replacement])) →
      ∀ k, ∃ s r p, c ++ r' = s ++ r ∧ Paired s ∧ Paired r ∧
        (utf8 (c ++ r')).take k = utf8 s ++ p ∧
        utf8Decode ((utf8 (c ++ r')).take k) = s ++ (if p = [] then [] else [replacement]) := by
    intro c r' bs hrb hc hr' heq hcb hbs ih k
    rw [heq]
    by_cases hk : k < bs.length
    · rw [List.take_append_of_le_length hk.le]
      refine ⟨[], c ++ r', bs.take k, rfl, .nil, hc.append hr', rfl, ?_⟩
      rcases Nat.eq_zero_or_pos k with rfl | hk0
      · rfl
      · have hne : bs.take k ≠ [] := by
          rw [Ne, List.take_eq_nil_iff]
          rintro (h0 | h0)
          · omega
          · exact hbs h0
        rw [if_neg hne]
        exact hrb.2 k hk0 hk
    · obtain ⟨s, r, p, h1, h2, h3, h4, h5⟩ := ih (k - bs.length)
      have htake : (bs ++ utf8 r').take k = bs ++ (utf8 r').take (k - bs.length) := by
        rw [List.take_append, List.take_of_length_le (by omega)]
      refine ⟨c ++ s, r, p, by rw [h1, List.append_assoc], hc.append h2, h3, ?_, ?_⟩
      · rw [htake, h4, utf8_append hc, hcb, List.append_assoc]
      · rw [htake]
        unfold utf8Decode at h5 ⊢
        rw [hrb.1, h5, List.append_assoc]
  induction h generalizing k with
  | nil => exact ⟨[], [], [], rfl, .nil, .nil, by simp [utf8], by simp [utf8, utf8Decode, decodeFrom]⟩
  | @unit u r hu hr ih =>
    have hne : utf8Unit u ≠ [] := by unfold utf8Unit; split_ifs <;> simp
    exact extend (readsBack_unit hu) (.unit hu .nil) hr (utf8_unit hu r)
      (by rw [utf8_unit hu]; simp [utf8]) hne ih k
  | @pair u v r hu hv hr ih =>
    exact extend (readsBack_pair hu hv) (.pair hu hv .nil) hr (utf8_pair hu hv r)
      (by rw [utf8_pair hu hv]; simp [utf8]) (by simp [utf8Pair]) ih k

end Js
