-- What a written timestamp reads as: the same timestamp in the order of the
-- file, under just the limits that the reader sets.
import Klick.Ots
import Klick.Checked

open Js

namespace Js

/-! ## Steps that succeed under a condition -/

section Exactly

variable {ε α β : Type}

/-- `x` succeeds under the condition `c` and no other, and then with `a`. -/
structure Exactly (x : Except ε α) (c : Prop) (a : α) : Prop where
  of_cond : c → x = .ok a
  of_ok : ∀ b, x = .ok b → c ∧ b = a

theorem Exactly.ok (a : α) : Exactly (.ok a : Except ε α) True a :=
  ⟨fun _ => rfl, fun _ h => ⟨trivial, (Except.ok.inj h).symm⟩⟩

theorem Exactly.congr {x : Except ε α} {c d : Prop} {a : α} (h : Exactly x c a) (hcd : c ↔ d) :
    Exactly x d a :=
  ⟨fun hd => h.of_cond (hcd.mpr hd), fun b hb => ⟨hcd.mp (h.of_ok b hb).1, (h.of_ok b hb).2⟩⟩

theorem Exactly.bind {x : Except ε α} {c d : Prop} {a : α} {f : α → Except ε β} {b : β}
    (hx : Exactly x c a) (hf : Exactly (f a) d b) : Exactly (x >>= f) (c ∧ d) b := by
  constructor
  · rintro ⟨hc, hd⟩
    rw [hx.of_cond hc]
    exact hf.of_cond hd
  · intro b' hb'
    obtain ⟨a', ha', hfa⟩ := bind_eq_ok.mp hb'
    obtain ⟨hc, rfl⟩ := hx.of_ok a' ha'
    obtain ⟨hd, rfl⟩ := hf.of_ok b' hfa
    exact ⟨⟨hc, hd⟩, rfl⟩

/-- A step that always succeeds adds no condition. -/
theorem Exactly.then {x : Except ε α} {d : Prop} {a : α} {f : α → Except ε β} {b : β}
    (hx : x = .ok a) (hf : Exactly (f a) d b) : Exactly (x >>= f) d b := by
  rw [hx]
  exact hf

theorem Exactly.map {x : Except ε α} {c : Prop} {a : α} (hx : Exactly x c a) (f : α → β) :
    Exactly (x >>= fun y => pure (f y)) c (f a) :=
  (hx.bind (Exactly.ok (f a))).congr (and_iff_left trivial)

theorem Exactly.guard {c : Prop} [Decidable c] {e : ε} {x : Except ε α} {d : Prop} {a : α}
    (h : Exactly x d a) : Exactly (if c then .error e else x) (¬ c ∧ d) a := by
  by_cases hc : c
  · rw [if_pos hc]
    exact ⟨fun hn => absurd hc hn.1, fun _ hb => nomatch hb⟩
  · rw [if_neg hc]
    exact h.congr ⟨fun hd => ⟨hc, hd⟩, fun hd => hd.2⟩

theorem Exactly.mapM {f : α → Except ε β} {c : α → Prop} {g : α → β} {l : List α}
    (h : ∀ a ∈ l, Exactly (f a) (c a) (g a)) : Exactly (l.mapM f) (∀ a ∈ l, c a) (l.map g) := by
  induction l with
  | nil => exact (Exactly.ok []).congr (by simp)
  | cons a l ih =>
    rw [List.mapM_cons, List.map_cons]
    have htail := (ih fun x hx => h x (List.mem_cons_of_mem _ hx)).map (g a :: ·)
    exact ((h a List.mem_cons_self).bind htail).congr (by simp)

theorem Exactly.ok_iff {x : Except ε α} {c : Prop} {a : α} (h : Exactly x c a) :
    x = .ok a ↔ c :=
  ⟨fun hx => (h.of_ok a hx).1, h.of_cond⟩

end Exactly

end Js

namespace Klick.Ots

/-! ## Numbers and lengths -/

theorem sum_eq {a b : ℕ} (h : a + b ≤ 2 ^ 53) : Reader.sum a b = a + b := by
  unfold Reader.sum
  have habs : |(a : ℤ) + b| ≤ 2 ^ 53 := by
    rw [abs_of_nonneg (by omega)]
    exact_mod_cast h
  rw [plus_eq habs]
  omega

theorem varuintFrom_digits (fuel k n value shift : ℕ) (rest : Bytes) (nodes : ℕ) (hn : n ≤ fuel)
    (hk : n < 128 ^ (k + 1)) (hsum : value + n * shift ≤ 2 ^ 53) :
    Reader.varuintFrom (k + 1) value shift ⟨varuintDigits fuel n ++ rest, nodes⟩ =
      .ok (value + n * shift, ⟨rest, nodes⟩) := by
  induction fuel generalizing k n value shift with
  | zero =>
    obtain rfl : n = 0 := by omega
    simp only [Nat.zero_mul, Nat.add_zero] at hsum ⊢
    change Except.ok (Reader.sum value (0 % 128 * shift), (⟨rest, nodes⟩ : Reader)) = _
    rw [Nat.zero_mod, Nat.zero_mul, sum_eq hsum, Nat.add_zero]
  | succ fuel ih =>
    rw [varuintDigits]
    by_cases hsmall : n < 128
    · have hb : (byte n).toNat = n := byte_toNat (by omega)
      rw [if_pos hsmall]
      change (if (byte n).toNat < 128 then Except.ok (Reader.sum value ((byte n).toNat % 128 * shift),
        (⟨rest, nodes⟩ : Reader)) else _) = _
      rw [hb, if_pos hsmall, Nat.mod_eq_of_lt hsmall, sum_eq hsum]
    · have hb : (byte (n % 128 + 128)).toNat = n % 128 + 128 := byte_toNat (by omega)
      have hsplit : value + n % 128 * shift + n / 128 * (shift * 128) = value + n * shift := by
        have := Nat.div_add_mod n 128
        calc value + n % 128 * shift + n / 128 * (shift * 128)
            = value + (128 * (n / 128) + n % 128) * shift := by ring
          _ = value + n * shift := by rw [this]
      obtain ⟨j, rfl⟩ : ∃ j, k = j + 1 := by
        cases k with
        | zero =>
          rw [Nat.zero_add, pow_one] at hk
          omega
        | succ j => exact ⟨j, rfl⟩
      rw [if_neg hsmall, List.cons_append]
      change (if (byte (n % 128 + 128)).toNat < 128 then _ else
        Reader.varuintFrom (j + 1) (Reader.sum value ((byte (n % 128 + 128)).toNat % 128 * shift))
          (shift * 128) ⟨varuintDigits fuel (n / 128) ++ rest, nodes⟩) = _
      have hmod : (n % 128 + 128) % 128 = n % 128 := by omega
      rw [hb, if_neg (by omega), hmod, sum_eq (by omega), ih j (n / 128) _ _ (by omega) ?_ (by omega),
        hsplit]
      rw [Nat.div_lt_iff_lt_mul (by omega), ← pow_succ]
      exact hk

theorem varuint_bytes {n : ℕ} (h : n ≤ maxSafe) (rest : Bytes) (nodes : ℕ) :
    Reader.varuint ⟨varuintBytes n ++ rest, nodes⟩ = .ok (n, ⟨rest, nodes⟩) := by
  have hsafe : n < 2 ^ 53 := by
    unfold maxSafe at h
    omega
  have hpow : (2 : ℕ) ^ 53 ≤ 128 ^ (8 + 1) := by norm_num
  unfold Reader.varuint varuintBytes
  rw [varuintFrom_digits n 8 n 0 1 rest nodes (le_refl n) (by omega) (by omega)]
  simp

theorem reader_bytes (bs rest : Bytes) (nodes : ℕ) :
    Reader.bytes bs.length ⟨bs ++ rest, nodes⟩ = .ok (bs, ⟨rest, nodes⟩) := by
  unfold Reader.bytes
  rw [if_neg (by simp)]
  simp

theorem varbytes_exactly {bs : Bytes} (h : bs.length ≤ maxSafe) (max : ℕ) (rest : Bytes) (nodes : ℕ) :
    Exactly (Reader.varbytes max ⟨varbytes bs ++ rest, nodes⟩) (bs.length ≤ max)
      (bs, ⟨rest, nodes⟩) := by
  unfold Reader.varbytes varbytes
  rw [List.append_assoc]
  refine Exactly.then (varuint_bytes h (bs ++ rest) nodes) ?_
  have hread := (Exactly.ok (ε := String) (bs, (⟨rest, nodes⟩ : Reader)))
  rw [← reader_bytes] at hread
  exact (hread.guard).congr (by simp)

/-- Three bytes for each code unit are enough. -/
theorem utf8_length (t : Text) : (utf8 t).length ≤ 3 * t.length := by
  have hunit : ∀ u, (utf8Unit u).length ≤ 3 := by
    intro u
    unfold utf8Unit
    split_ifs <;> simp
  induction t using utf8.induct with
  | case1 => simp [utf8]
  | case2 u => simpa [utf8] using hunit u
  | case3 u v r h ih =>
    rw [utf8, if_pos h]
    simp only [utf8Pair, List.length_append, List.length_cons, List.length_nil]
    omega
  | case4 u v r h ih =>
    rw [utf8, if_neg h]
    have := hunit u
    simp only [List.length_append, List.length_cons] at ih ⊢
    omega

theorem nextByte_length (s : Option Pending) (b : ℕ) : (nextByte s b).1.length ≤ 2 := by
  have hfirst : (firstByte b).1.length ≤ 1 := by
    unfold firstByte
    split_ifs <;> simp
  unfold nextByte
  split
  · omega
  · split_ifs
    · unfold unitsOf
      split_ifs <;> simp
    · simp
    · simpa using hfirst

theorem decodeFrom_length (s : Option Pending) (bs : Bytes) :
    (decodeFrom s bs).length ≤ 2 * bs.length + 1 := by
  induction bs generalizing s with
  | nil =>
    unfold decodeFrom
    split_ifs <;> simp
  | cons b bs ih =>
    have h1 := nextByte_length s b.toNat
    have h2 := ih (nextByte s b.toNat).2
    simp only [decodeFrom, List.length_append, List.length_cons]
    omega

/-! ## What is decoded has no lone surrogates -/

/-- A character begun that ends in a code point and no surrogate. -/
def SoundPending (p : Pending) : Prop :=
  0x80 ≤ p.lower ∧ p.upper ≤ 0xbf ∧
    ((p.needed = 1 ∧ (p.value < 864 ∨ 896 ≤ p.value) ∧ p.value < 17408) ∨
      (p.needed = 2 ∧ p.value < 272 ∧ (p.value = 13 → p.upper ≤ 0x9f)) ∨
      (p.needed = 3 ∧ p.value ≤ 4 ∧ (p.value = 0 → 0x90 ≤ p.lower) ∧ (p.value = 4 → p.upper ≤ 0x8f)))

theorem paired_unit {n : ℕ} (hn : n < 0x10000) (hs : n < 0xd800 ∨ 0xe000 ≤ n) :
    Paired [UInt16.ofNat n] := by
  refine .unit ?_ .nil
  have hu : (UInt16.ofNat n).toNat = n := by
    rw [UInt16.toNat_ofNat']
    omega
  unfold isSurrogate isHighSurrogate isLowSurrogate
  rw [hu]
  simp only [Bool.or_eq_false_iff, Bool.and_eq_false_iff, decide_eq_false_iff_not]
  omega

theorem paired_unitsOf {n : ℕ} (hn : n < 0x110000) (hs : n < 0xd800 ∨ 0xe000 ≤ n) :
    Paired (unitsOf n) := by
  unfold unitsOf
  split_ifs with h
  · exact paired_unit h hs
  · have h1 : (UInt16.ofNat (0xd800 + (n - 0x10000) / 1024)).toNat = 0xd800 + (n - 0x10000) / 1024 := by
      rw [UInt16.toNat_ofNat']
      omega
    have h2 : (UInt16.ofNat (0xdc00 + (n - 0x10000) % 1024)).toNat = 0xdc00 + (n - 0x10000) % 1024 := by
      rw [UInt16.toNat_ofNat']
      omega
    refine .pair ?_ ?_ .nil
    · unfold isHighSurrogate
      rw [h1]
      simp only [Bool.and_eq_true, decide_eq_true_eq]
      omega
    · unfold isLowSurrogate
      rw [h2]
      simp only [Bool.and_eq_true, decide_eq_true_eq]
      omega

theorem paired_replacement : Paired [replacement] := .unit (by decide) .nil

theorem firstByte_paired (b : ℕ) : Paired (firstByte b).1 := by
  unfold firstByte
  split_ifs with h1
  · exact paired_unit (by omega) (by omega)
  all_goals first | exact .nil | exact paired_replacement

theorem firstByte_sound {b : ℕ} {p : Pending} (hp : (firstByte b).2 = some p) : SoundPending p := by
  unfold firstByte at hp
  unfold SoundPending
  by_cases h1 : b < 0x80
  · rw [if_pos h1] at hp
    cases hp
  rw [if_neg h1] at hp
  by_cases h2 : b < 0xc2
  · rw [if_pos h2] at hp
    cases hp
  rw [if_neg h2] at hp
  by_cases h3 : b < 0xe0
  · rw [if_pos h3] at hp
    cases hp
    dsimp only
    omega
  rw [if_neg h3] at hp
  by_cases h4 : b < 0xf0
  · rw [if_pos h4] at hp
    cases hp
    dsimp only
    split_ifs <;> omega
  rw [if_neg h4] at hp
  by_cases h5 : b < 0xf5
  · rw [if_pos h5] at hp
    cases hp
    dsimp only
    split_ifs <;> omega
  · rw [if_neg h5] at hp
    cases hp

theorem nextByte_sound {s : Option Pending} (b : ℕ) (hs : ∀ p, s = some p → SoundPending p) :
    Paired (nextByte s b).1 ∧ ∀ p, (nextByte s b).2 = some p → SoundPending p := by
  cases s with
  | none => exact ⟨firstByte_paired b, fun _ => firstByte_sound⟩
  | some p =>
    obtain ⟨hlow, hup, hcases⟩ := hs p rfl
    unfold nextByte
    dsimp only
    split_ifs with hin hone
    · have hend : Paired (unitsOf (p.value * 64 + (b - 0x80))) := by
        apply paired_unitsOf <;> omega
      generalize p.value * 64 + (b - 0x80) = n at hend
      exact ⟨hend, fun _ hq => hq.elim⟩
    · refine ⟨.nil, fun q hq => ?_⟩
      cases hq
      unfold SoundPending
      dsimp only
      omega
    · exact ⟨paired_replacement.append (firstByte_paired b), fun _ => firstByte_sound⟩

theorem paired_decodeFrom (s : Option Pending) (bs : Bytes) (hs : ∀ p, s = some p → SoundPending p) :
    Paired (decodeFrom s bs) := by
  induction bs generalizing s with
  | nil =>
    unfold decodeFrom
    split_ifs
    · exact paired_replacement
    · exact .nil
  | cons b bs ih =>
    obtain ⟨htext, hnext⟩ := nextByte_sound b.toNat hs
    exact htext.append (ih _ hnext)

theorem paired_utf8Decode (bs : Bytes) : Paired (utf8Decode bs) :=
  paired_decodeFrom none bs fun _ h => nomatch h

/-! ## Attestations and operations -/

/-- What `readAttestation` gives. -/
def OtsAttestation.Read : OtsAttestation → Prop
  | .pending uri => Paired uri ∧ uri.length ≤ 2 * maxUri + 1
  | .bitcoin _ => True
  | .unknown tag payload =>
    tag.length = 8 ∧ tag ≠ tagPending ∧ tag ≠ tagBitcoin ∧ payload.length ≤ maxPayload

/-- The height of a block can be written. -/
def OtsAttestation.Safe : OtsAttestation → Prop
  | .bitcoin height => height ≤ maxSafe
  | _ => True

/-- The address of a calendar is not too long to be read. -/
def OtsAttestation.Fits : OtsAttestation → Prop
  | .pending uri => (utf8 uri).length ≤ maxUri
  | _ => True

/-- What is written of an attestation that can be written. -/
def OtsAttestation.code : OtsAttestation → Bytes
  | .pending uri => tagPending ++ varbytes (varbytes (utf8 uri))
  | .bitcoin height => tagBitcoin ++ varbytes (varuintBytes height)
  | .unknown tag payload => tag ++ varbytes payload

theorem attestationBytes_exactly (a : OtsAttestation) : Exactly (attestationBytes a) a.Safe a.code := by
  cases a with
  | pending uri => exact Exactly.ok _
  | unknown tag payload => exact Exactly.ok _
  | bitcoin height =>
    have hwrite : Exactly (writeVaruint height) (height ≤ maxSafe) (varuintBytes height) :=
      ((Exactly.ok _).guard).congr (by simp)
    exact hwrite.map _

theorem varuintDigits_length (fuel n k : ℕ) (hk : n < 128 ^ (k + 1)) :
    (varuintDigits fuel n).length ≤ k + 1 := by
  induction fuel generalizing n k with
  | zero => simp [varuintDigits]
  | succ fuel ih =>
    rw [varuintDigits]
    split_ifs with hsmall
    · simp
    · cases k with
      | zero =>
        rw [Nat.zero_add, pow_one] at hk
        omega
      | succ k =>
        have := ih (n / 128) k (by
          rw [Nat.div_lt_iff_lt_mul (by omega), ← pow_succ]
          exact hk)
        simp only [List.length_cons]
        omega

theorem varuintBytes_length {n : ℕ} (h : n ≤ maxSafe) : (varuintBytes n).length ≤ 8 :=
  varuintDigits_length n n 7 (by
    unfold maxSafe at h
    omega)

theorem varbytes_length {bs : Bytes} (h : bs.length ≤ maxSafe) :
    (varbytes bs).length ≤ bs.length + 8 := by
  have := varuintBytes_length h
  unfold varbytes
  rw [List.length_append]
  omega

theorem maxPayload_safe : maxPayload ≤ maxSafe := by decide

theorem wholePayload_exactly {α : Type} {payload : Bytes} {read : Reader → Except String (α × Reader)}
    {c : Prop} {a : α} (h : Exactly (read ⟨payload, 0⟩) c (a, ⟨[], 0⟩)) :
    Exactly (wholePayload payload read) c a :=
  (h.bind (Exactly.ok a)).congr (and_iff_left trivial)

/-- A written attestation is read as it was when the address of its calendar fits. -/
theorem readAttestation_exactly {a : OtsAttestation} (hread : a.Read) (hsafe : a.Safe) (rest : Bytes)
    (nodes : ℕ) :
    Exactly (readAttestation ⟨a.code ++ rest, nodes⟩) a.Fits (a, ⟨rest, nodes⟩) := by
  have htag : ∀ (tag bs : Bytes), tag.length = 8 →
      Reader.bytes 8 ⟨tag ++ bs, nodes⟩ = .ok (tag, ⟨bs, nodes⟩) := by
    intro tag bs htag
    rw [← htag]
    exact reader_bytes tag bs nodes
  have hpayload : ∀ payload : Bytes, payload.length ≤ maxPayload →
      Reader.varbytes maxPayload ⟨varbytes payload ++ rest, nodes⟩ = .ok (payload, ⟨rest, nodes⟩) :=
    fun payload hlen => (varbytes_exactly (hlen.trans maxPayload_safe) _ rest nodes).of_cond hlen
  unfold readAttestation
  cases a with
  | pending uri =>
    obtain ⟨hpaired, hlen⟩ := hread
    have hbytes : (utf8 uri).length ≤ maxPayload - 8 := by
      have := utf8_length uri
      unfold maxUri at hlen
      unfold maxPayload
      omega
    have huri : (utf8 uri).length ≤ maxSafe :=
      hbytes.trans ((Nat.sub_le _ _).trans maxPayload_safe)
    have hvar := varbytes_length huri
    rw [OtsAttestation.code, List.append_assoc]
    refine Exactly.then (htag tagPending _ rfl) ?_
    refine Exactly.then (hpayload (varbytes (utf8 uri)) (by
      unfold maxPayload at hbytes ⊢
      omega)) ?_
    dsimp only
    rw [if_pos rfl]
    have hwhole := wholePayload_exactly (varbytes_exactly huri maxUri [] 0)
    rw [List.append_nil] at hwhole
    have hmap := hwhole.map fun bs => (OtsAttestation.pending (utf8Decode bs), (⟨rest, nodes⟩ : Reader))
    rw [utf8Decode_utf8 hpaired] at hmap
    exact hmap
  | bitcoin height =>
    rw [OtsAttestation.code, List.append_assoc]
    refine Exactly.then (htag tagBitcoin _ rfl) ?_
    refine Exactly.then (hpayload (varuintBytes height) (by
      have := varuintBytes_length hsafe
      unfold maxPayload
      omega)) ?_
    dsimp only
    rw [if_neg (by decide), if_pos rfl]
    have hheight := varuint_bytes hsafe [] 0
    rw [List.append_nil] at hheight
    have hvar : Exactly (Reader.varuint ⟨varuintBytes height, 0⟩) True (height, ⟨[], 0⟩) := by
      rw [hheight]
      exact Exactly.ok _
    exact (wholePayload_exactly hvar).map fun h => (OtsAttestation.bitcoin h, (⟨rest, nodes⟩ : Reader))
  | unknown tag payload =>
    obtain ⟨hsize, hpending, hbitcoin, hlen⟩ := hread
    rw [OtsAttestation.code, List.append_assoc]
    refine Exactly.then (htag tag _ hsize) ?_
    refine Exactly.then (hpayload payload hlen) ?_
    dsimp only
    rw [if_neg hpending, if_neg hbitcoin]
    exact Exactly.ok _

/-- The argument of an operation is not too long to be read. -/
def OtsOp.Small : OtsOp → Prop
  | .append arg => arg.length ≤ maxArg
  | .prepend arg => arg.length ≤ maxArg
  | _ => True

/-- What follows the tag of an operation. -/
def OtsOp.tail : OtsOp → Bytes
  | .append arg => varbytes arg
  | .prepend arg => varbytes arg
  | _ => []

theorem opBytes_eq (op : OtsOp) : opBytes op = opTag op :: op.tail := by
  cases op <;> rfl

theorem opTag_ne (op : OtsOp) : opTag op ≠ 0 ∧ opTag op ≠ 0xff := by
  cases op <;> simp [opTag]

theorem readOp_tail {op : OtsOp} (h : op.Small) (rest : Bytes) (nodes : ℕ) :
    readOp (opTag op) ⟨op.tail ++ rest, nodes⟩ = .ok (op, ⟨rest, nodes⟩) := by
  have hargs : maxArg ≤ maxSafe := by decide
  have harg : ∀ arg : Bytes, arg.length ≤ maxArg →
      Reader.varbytes maxArg ⟨varbytes arg ++ rest, nodes⟩ = .ok (arg, ⟨rest, nodes⟩) :=
    fun arg hlen => (varbytes_exactly (hlen.trans hargs) _ rest nodes).of_cond hlen
  unfold readOp
  cases op with
  | append arg =>
    rw [if_pos (by rfl)]
    exact bind_eq_ok.mpr ⟨_, harg arg h, rfl⟩
  | prepend arg =>
    rw [if_neg (by simp [opTag]), if_pos (by rfl)]
    exact bind_eq_ok.mpr ⟨_, harg arg h, rfl⟩
  | _ => rfl

/-! ## Trees -/

mutual
/-- What holds of a timestamp when it holds of one whose branches all have it. -/
theorem OtsTimestamp.byOps {P : OtsTimestamp → Prop}
    (h : ∀ m as os, (∀ o ∈ os, P o.2) → P (.mk m as os)) : ∀ t, P t
  | .mk m as os => h m as os (byOpsOf h os)
theorem byOpsOf {P : OtsTimestamp → Prop} (h : ∀ m as os, (∀ o ∈ os, P o.2) → P (.mk m as os)) :
    ∀ os : List (OtsOp × OtsTimestamp), ∀ o ∈ os, P o.2
  | [], _, ho => nomatch ho
  | (op, t) :: os, o, ho => by
    rcases List.mem_cons.mp ho with rfl | ho
    · exact OtsTimestamp.byOps h t
    · exact byOpsOf h os o ho
end

mutual
/-- The items that the reader counts. -/
def OtsTimestamp.entries : OtsTimestamp → ℕ
  | .mk _ as os => as.length + entriesOf os
def entriesOf : List (OtsOp × OtsTimestamp) → ℕ
  | [] => 0
  | (_, t) :: os => 1 + t.entries + entriesOf os
end

mutual
/-- The longest sequence of operations. -/
def OtsTimestamp.depth : OtsTimestamp → ℕ
  | .mk _ _ os => depthOf os
def depthOf : List (OtsOp × OtsTimestamp) → ℕ
  | [] => 0
  | (_, t) :: os => max (1 + t.depth) (depthOf os)
end

mutual
/-- What is written of a timestamp, its items in the order in which they stand. -/
def OtsTimestamp.code : OtsTimestamp → Bytes
  | .mk _ as os => frame (as.map (fun a => 0x00 :: a.code) ++ codesOf os)
def codesOf : List (OtsOp × OtsTimestamp) → List Bytes
  | [] => []
  | (op, t) :: os => (opBytes op ++ t.code) :: codesOf os
end

/-- Sorted by what a list of bytes says of each item. -/
def sortOn {α : Type} (key : α → Bytes) (l : List α) : List α :=
  (sortByKey (l.map fun a => (toHex (key a), a))).map (·.2)

theorem sortOn_perm {α : Type} (key : α → Bytes) (l : List α) : (sortOn key l).Perm l := by
  have h := (sortByKey_perm (l.map fun a => (toHex (key a), a))).map Prod.snd
  have hid : (l.map fun a => (toHex (key a), a)).map Prod.snd = l := by
    rw [List.map_map]
    exact List.map_id l
  rw [hid] at h
  exact h

/-- Sorting and then writing is writing and then sorting. -/
theorem sortByKey_map {α β : Type} (key : α → Bytes) (f : α → β) (l : List α) :
    (sortByKey (l.map fun a => (toHex (key a), f a))).map (·.2) = (sortOn key l).map f := by
  have hsame : SameKeys (fun a b => b = f a) (l.map fun a => (toHex (key a), a))
      (l.map fun a => (toHex (key a), f a)) := by
    induction l with
    | nil => exact .nil
    | cons a l ih => exact .cons ⟨rfl, rfl⟩ ih
  have h := sameKeys_sortByKey hsame
  unfold sortOn
  rw [List.map_map]
  generalize sortByKey (l.map fun a => (toHex (key a), a)) = as at h
  generalize sortByKey (l.map fun a => (toHex (key a), f a)) = bs at h
  induction h with
  | nil => rfl
  | cons hab _ ih =>
    rw [List.map_cons, List.map_cons, ih, hab.2]
    rfl

theorem sortOn_map {α β : Type} {key : α → Bytes} {key' : β → Bytes} {f : α → β}
    (h : ∀ a, key' (f a) = key a) (l : List α) : sortOn key' (l.map f) = (sortOn key l).map f := by
  rw [← sortByKey_map, sortOn, List.map_map]
  congr 3
  funext a
  rw [Function.comp_apply, h]

theorem sortBytes_map {α : Type} (key : α → Bytes) (l : List α) :
    sortBytes (l.map key) = (sortOn key l).map key := sortOn_map (fun _ => rfl) l

mutual
/-- The timestamp in the order of its file. -/
def OtsTimestamp.sorted : OtsTimestamp → OtsTimestamp
  | .mk m as os => .mk m (sortOn OtsAttestation.code as) (sortOn (fun o => opBytes o.1) (sortedOf os))
def sortedOf : List (OtsOp × OtsTimestamp) → List (OtsOp × OtsTimestamp)
  | [] => []
  | (op, t) :: os => (op, t.sorted) :: sortedOf os
end

theorem codesOf_eq (os : List (OtsOp × OtsTimestamp)) :
    codesOf os = os.map fun o => opBytes o.1 ++ o.2.code := by
  induction os with
  | nil => rfl
  | cons o os ih => rw [codesOf, ih, List.map_cons]

theorem sortedOf_eq (os : List (OtsOp × OtsTimestamp)) :
    sortedOf os = os.map fun o => (o.1, o.2.sorted) := by
  induction os with
  | nil => rfl
  | cons o os ih => rw [sortedOf, ih, List.map_cons]

theorem attestationsOf_eq (os : List (OtsOp × OtsTimestamp)) :
    attestationsOf os = os.flatMap fun o => attestationsAt o.2 := by
  induction os with
  | nil => rfl
  | cons o os ih => rw [attestationsOf, ih, List.flatMap_cons]

theorem entriesOf_eq (os : List (OtsOp × OtsTimestamp)) :
    entriesOf os = (os.map fun o => 1 + o.2.entries).sum := by
  induction os with
  | nil => rfl
  | cons o os ih => rw [entriesOf, ih, List.map_cons, List.sum_cons]

theorem depthOf_le {os : List (OtsOp × OtsTimestamp)} {n : ℕ} :
    depthOf os ≤ n ↔ ∀ o ∈ os, 1 + o.2.depth ≤ n := by
  induction os with
  | nil => simp [depthOf]
  | cons o os ih => simp [depthOf, ih]

/-- Every height can be written. -/
def OtsTimestamp.Safe (t : OtsTimestamp) : Prop := ∀ a ∈ attestationsAt t, a.attestation.Safe

/-- Every address of a calendar can be read. -/
def OtsTimestamp.Fits (t : OtsTimestamp) : Prop := ∀ a ∈ attestationsAt t, a.attestation.Fits

/-- Something of the attestations of a timestamp, read off the node and its branches. -/
theorem forall_attestationsAt {m : Bytes} {as : List OtsAttestation} {os : List (OtsOp × OtsTimestamp)}
    (p : OtsAttestation → Prop) :
    (∀ a ∈ attestationsAt (.mk m as os), p a.attestation) ↔
      (∀ a ∈ as, p a) ∧ ∀ o ∈ os, ∀ a ∈ attestationsAt o.2, p a.attestation := by
  rw [attestationsAt, attestationsOf_eq]
  constructor
  · intro h
    refine ⟨fun a ha => h ⟨m, a⟩ (List.mem_append_left _ (List.mem_map_of_mem ha)), ?_⟩
    intro o ho a ha
    exact h a (List.mem_append_right _ (List.mem_flatMap.mpr ⟨o, ho, ha⟩))
  · rintro ⟨has, hos⟩ a ha
    rcases List.mem_append.mp ha with ha | ha
    · obtain ⟨b, hb, rfl⟩ := List.mem_map.mp ha
      exact has b hb
    · obtain ⟨o, ho, ha⟩ := List.mem_flatMap.mp ha
      exact hos o ho a ha

/-- Every node has an item. -/
inductive OtsTimestamp.Full : OtsTimestamp → Prop
  | mk {m : Bytes} {as : List OtsAttestation} {os : List (OtsOp × OtsTimestamp)}
      (hsome : as ≠ [] ∨ os ≠ []) (hops : ∀ o ∈ os, o.2.Full) : Full (.mk m as os)

theorem writeOps_exactly {os : List (OtsOp × OtsTimestamp)}
    (h : ∀ o ∈ os, Exactly (writeTimestamp o.2) o.2.Safe o.2.sorted.code) :
    Exactly (writeOps os) (∀ o ∈ os, o.2.Safe)
      (os.map fun o => (opKey o.1, opBytes o.1 ++ o.2.sorted.code)) := by
  induction os with
  | nil => exact (Exactly.ok _).congr (by simp)
  | cons o os ih =>
    have hhead := h o List.mem_cons_self
    have htail := (ih fun x hx => h x (List.mem_cons_of_mem _ hx)).map
      ((opKey o.1, opBytes o.1 ++ o.2.sorted.code) :: ·)
    rw [writeOps]
    exact (hhead.bind htail).congr (by simp)

/-- A full timestamp is written just when its heights can be. -/
theorem writeTimestamp_exactly {t : OtsTimestamp} (h : t.Full) :
    Exactly (writeTimestamp t) t.Safe t.sorted.code := by
  induction h with
  | @mk m as os hsome hops ih =>
    have hempty : ¬ (as.map OtsAttestation.code = [] ∧
        (os.map fun o => (opKey o.1, opBytes o.1 ++ o.2.sorted.code)) = []) := by
      rintro ⟨h1, h2⟩
      rw [List.map_eq_nil_iff] at h1 h2
      exact hsome.elim (fun h => h h1) (fun h => h h2)
    have hcode : frame ((sortBytes (as.map OtsAttestation.code)).map (0x00 :: ·) ++
        (sortByKey (os.map fun o => (opKey o.1, opBytes o.1 ++ o.2.sorted.code))).map (·.2)) =
        (OtsTimestamp.mk m as os).sorted.code := by
      rw [OtsTimestamp.sorted, OtsTimestamp.code, codesOf_eq, sortedOf_eq]
      congr 2
      · rw [sortBytes_map, List.map_map]
        rfl
      · have hsort : sortOn (fun o : OtsOp × OtsTimestamp => opBytes o.1)
            (os.map fun o => (o.1, o.2.sorted)) =
            (sortOn (fun o : OtsOp × OtsTimestamp => opBytes o.1) os).map fun o => (o.1, o.2.sorted) :=
          sortOn_map (fun _ => rfl) os
        rw [hsort, List.map_map]
        exact sortByKey_map (fun o : OtsOp × OtsTimestamp => opBytes o.1)
          (fun o => opBytes o.1 ++ o.2.sorted.code) os
    rw [writeTimestamp]
    have hatts := Exactly.mapM fun a (_ : a ∈ as) => attestationBytes_exactly a
    have hlast := Exactly.ok (ε := String) (OtsTimestamp.mk m as os).sorted.code
    refine ((hatts.bind ((writeOps_exactly ih).bind ?_)).congr (d := _ ∧ _ ∧ True) Iff.rfl).congr ?_
    · rw [if_neg hempty, hcode]
      exact hlast
    · rw [OtsTimestamp.Safe, forall_attestationsAt, and_true]
      rfl

/-! ## Reading a tree -/

section Digests

variable {D : Digests}

variable (D) in
/-- What the reader gives of attestations and operations: every message is the one that the
operation before it makes. -/
inductive OtsTimestamp.Sound : OtsTimestamp → Prop
  | mk {m : Bytes} {as : List OtsAttestation} {os : List (OtsOp × OtsTimestamp)}
      (hatts : ∀ a ∈ as, a.Read)
      (hmsgs : ∀ o ∈ os, o.1.Small ∧ applyOp D o.1 m = .ok o.2.msg)
      (hops : ∀ o ∈ os, o.2.Sound) : Sound (.mk m as os)

def OtsItem.code : OtsItem → Bytes
  | .attestation a => 0x00 :: a.code
  | .op o next => opBytes o ++ next.code

def OtsItem.entries : OtsItem → ℕ
  | .attestation _ => 1
  | .op _ next => 1 + next.entries

def OtsItem.depth : OtsItem → ℕ
  | .attestation _ => 0
  | .op _ next => 1 + next.depth

def OtsItem.Fits : OtsItem → Prop
  | .attestation a => a.Fits
  | .op _ next => next.Fits

/-- The items of a node, in the order in which they are written. -/
def OtsTimestamp.items : OtsTimestamp → List OtsItem
  | .mk _ as os => as.map .attestation ++ os.map fun o => .op o.1 o.2

theorem foldl_push (m : Bytes) (as bs : List OtsAttestation) (os ps : List (OtsOp × OtsTimestamp)) :
    (bs.map OtsItem.attestation ++ ps.map fun o => OtsItem.op o.1 o.2).foldl OtsTimestamp.push
      (.mk m as os) = .mk m (as ++ bs) (os ++ ps) := by
  rw [List.foldl_append]
  have hatts : (bs.map OtsItem.attestation).foldl OtsTimestamp.push (.mk m as os) =
      .mk m (as ++ bs) os := by
    induction bs generalizing as with
    | nil => simp
    | cons b bs ih =>
      rw [List.map_cons, List.foldl_cons, OtsTimestamp.push, ih, List.append_assoc, List.singleton_append]
  rw [hatts]
  clear hatts
  induction ps generalizing os with
  | nil => simp
  | cons p ps ih =>
    rw [List.map_cons, List.foldl_cons, OtsTimestamp.push, ih, List.append_assoc,
      List.singleton_append]

/-- How an item is read, once its tag is. -/
def ReadsItem (D : Digests) (m : Bytes) (depth : ℕ) (i : OtsItem) : Prop :=
  ∃ tag tail, i.code = tag :: tail ∧ tag ≠ 0xff ∧ ∀ fuel rest nodes, 3 * tail.length + 4 ≤ fuel →
    Exactly (readItem D fuel m depth tag ⟨tail ++ rest, nodes⟩)
      (nodes + i.entries ≤ maxNodes ∧ depth + i.depth ≤ maxDepth ∧ i.Fits)
      (i, ⟨rest, nodes + i.entries⟩)

theorem msg_push (t : OtsTimestamp) (i : OtsItem) : (t.push i).msg = t.msg := by
  cases t
  cases i <;> rfl

/-- The items of a node are read one after the other. -/
theorem readItems_exactly {depth : ℕ} {is : List OtsItem} (hne : is ≠ []) {t : OtsTimestamp}
    (h : ∀ i ∈ is, ReadsItem D t.msg depth i) (fuel : ℕ) (rest : Bytes) (nodes : ℕ)
    (hfuel : 3 * (frame (is.map OtsItem.code)).length + 2 ≤ fuel) :
    Exactly (readItems D fuel depth t ⟨frame (is.map OtsItem.code) ++ rest, nodes⟩)
      (nodes + (is.map OtsItem.entries).sum ≤ maxNodes ∧
        ∀ i ∈ is, depth + i.depth ≤ maxDepth ∧ i.Fits)
      (is.foldl OtsTimestamp.push t, ⟨rest, nodes + (is.map OtsItem.entries).sum⟩) := by
  induction is generalizing t fuel nodes with
  | nil => exact absurd rfl hne
  | cons i is ih =>
    obtain ⟨fuel, rfl⟩ : ∃ f, fuel = f + 1 := ⟨fuel - 1, by omega⟩
    obtain ⟨tag, tail, hcode, htag, hitem⟩ := h i List.mem_cons_self
    cases is with
    | nil =>
      have hframe : frame ([i].map OtsItem.code) = tag :: tail := hcode
      rw [hframe] at hfuel ⊢
      have hone := (hitem fuel rest nodes (by
        rw [List.length_cons] at hfuel
        omega)).map fun p => (t.push p.1, p.2)
      rw [readItems]
      refine Exactly.then (a := (tag, ⟨tail ++ rest, nodes⟩)) rfl ?_
      dsimp only
      rw [if_neg htag]
      exact hone.congr (by simp)
    | cons j is =>
      have hframe : frame ((i :: j :: is).map OtsItem.code) =
          0xff :: tag :: (tail ++ frame ((j :: is).map OtsItem.code)) := by
        rw [List.map_cons, List.map_cons, frame, hcode]
        rfl
      rw [hframe] at hfuel ⊢
      simp only [List.length_cons, List.length_append] at hfuel
      have hone := hitem fuel (frame ((j :: is).map OtsItem.code) ++ rest) nodes (by omega)
      have hmore := ih (by simp) (t := t.push i) (fun x hx => by
        rw [msg_push]
        exact h x (List.mem_cons_of_mem _ hx)) fuel (nodes + i.entries) (by omega)
      rw [readItems]
      refine Exactly.then (a := ((0xff : UInt8),
        ⟨tag :: (tail ++ frame ((j :: is).map OtsItem.code)) ++ rest, nodes⟩)) rfl ?_
      dsimp only
      rw [if_pos rfl]
      refine Exactly.then
        (a := (tag, ⟨tail ++ (frame ((j :: is).map OtsItem.code) ++ rest), nodes⟩)) ?_ ?_
      · rw [List.cons_append, List.append_assoc]
        rfl
      · have hsum : nodes + i.entries + ((j :: is).map OtsItem.entries).sum =
            nodes + ((i :: j :: is).map OtsItem.entries).sum := by
          rw [List.map_cons (a := i), List.sum_cons]
          omega
        rw [hsum] at hmore
        refine (hone.bind hmore).congr ?_
        simp only [List.map_cons, List.sum_cons, List.mem_cons, forall_eq_or_imp]
        constructor
        · rintro ⟨⟨_, hd, hf⟩, hn, hrest⟩
          exact ⟨hn, ⟨hd, hf⟩, hrest⟩
        · rintro ⟨hn, ⟨hd, hf⟩, hrest⟩
          exact ⟨⟨by omega, hd, hf⟩, hn, hrest⟩

theorem readsItem_attestation {m : Bytes} {depth : ℕ} (hdepth : depth ≤ maxDepth) {a : OtsAttestation}
    (hread : a.Read) (hsafe : a.Safe) : ReadsItem D m depth (.attestation a) := by
  refine ⟨0x00, a.code, rfl, by decide, fun fuel rest nodes hfuel => ?_⟩
  obtain ⟨fuel, rfl⟩ : ∃ f, fuel = f + 1 := ⟨fuel - 1, by omega⟩
  have hnode : Exactly (Reader.node ⟨a.code ++ rest, nodes⟩) (nodes + 1 ≤ maxNodes)
      ⟨a.code ++ rest, nodes + 1⟩ :=
    ((Exactly.ok _).guard).congr (by simp)
  have hatt := (readAttestation_exactly hread hsafe rest (nodes + 1)).map
    fun p => (OtsItem.attestation p.1, p.2)
  rw [readItem]
  refine (hnode.bind (d := a.Fits) ?_).congr ?_
  · rw [if_pos rfl]
    exact hatt
  · simp only [OtsItem.entries, OtsItem.depth, OtsItem.Fits]
    constructor
    · rintro ⟨hn, hf⟩
      exact ⟨hn, hdepth, hf⟩
    · rintro ⟨hn, _, hf⟩
      exact ⟨hn, hf⟩

theorem readsItem_op {m : Bytes} {depth : ℕ} {op : OtsOp} {next : OtsTimestamp} (hsmall : op.Small)
    (happly : applyOp D op m = .ok next.msg)
    (h : ∀ fuel d nodes rest, 3 * next.code.length + 3 ≤ fuel →
      Exactly (readTimestamp D fuel next.msg d ⟨next.code ++ rest, nodes⟩)
        (d + next.depth ≤ maxDepth ∧ nodes + next.entries ≤ maxNodes ∧ next.Fits)
        (next, ⟨rest, nodes + next.entries⟩)) :
    ReadsItem D m depth (.op op next) := by
  obtain ⟨hzero, hmore⟩ := opTag_ne op
  refine ⟨opTag op, op.tail ++ next.code, ?_, hmore, fun fuel rest nodes hfuel => ?_⟩
  · rw [OtsItem.code, opBytes_eq, List.cons_append]
  obtain ⟨fuel, rfl⟩ : ∃ f, fuel = f + 1 := ⟨fuel - 1, by omega⟩
  have hnode : Exactly (Reader.node ⟨op.tail ++ next.code ++ rest, nodes⟩) (nodes + 1 ≤ maxNodes)
      ⟨op.tail ++ (next.code ++ rest), nodes + 1⟩ := by
    rw [List.append_assoc]
    exact ((Exactly.ok _).guard).congr (by simp)
  have hnext := (h fuel (depth + 1) (nodes + 1) rest (by
    rw [List.length_append] at hfuel
    omega)).map fun p => (OtsItem.op op p.1, p.2)
  rw [readItem]
  refine (hnode.bind (d := depth + 1 + next.depth ≤ maxDepth ∧
    nodes + 1 + next.entries ≤ maxNodes ∧ next.Fits) ?_).congr ?_
  · rw [if_neg hzero]
    refine Exactly.then (readOp_tail hsmall _ _) (Exactly.then happly ?_)
    simpa only [OtsItem.entries, Nat.add_assoc] using hnext
  · simp only [OtsItem.entries, OtsItem.depth, OtsItem.Fits]
    constructor
    · rintro ⟨_, hd, hn, hf⟩
      exact ⟨by omega, by omega, hf⟩
    · rintro ⟨hn, hd, hf⟩
      exact ⟨by omega, by omega, by omega, hf⟩

/-- The limits of a node are those of its items. -/
theorem items_within {m : Bytes} {as : List OtsAttestation} {os : List (OtsOp × OtsTimestamp)}
    {depth n : ℕ} (hdepth : depth ≤ maxDepth) :
    (n ≤ maxNodes ∧ ∀ i ∈ (OtsTimestamp.mk m as os).items, depth + i.depth ≤ maxDepth ∧ i.Fits) ↔
      depth + (OtsTimestamp.mk m as os).depth ≤ maxDepth ∧ n ≤ maxNodes ∧
        (OtsTimestamp.mk m as os).Fits := by
  have hall : depth + (OtsTimestamp.mk m as os).depth ≤ maxDepth ↔
      ∀ o ∈ os, depth + (1 + o.2.depth) ≤ maxDepth := by
    rw [OtsTimestamp.depth, ← Nat.le_sub_iff_add_le' hdepth, depthOf_le]
    exact forall₂_congr fun o _ => Nat.le_sub_iff_add_le' hdepth
  rw [hall, OtsTimestamp.Fits, forall_attestationsAt, OtsTimestamp.items]
  simp only [List.mem_append, List.mem_map]
  constructor
  · rintro ⟨hn, hitems⟩
    refine ⟨fun o ho => (hitems _ (.inr ⟨o, ho, rfl⟩)).1, hn,
      fun a ha => (hitems _ (.inl ⟨a, ha, rfl⟩)).2, fun o ho => (hitems _ (.inr ⟨o, ho, rfl⟩)).2⟩
  · rintro ⟨hdepths, hn, hatts, hops⟩
    refine ⟨hn, ?_⟩
    rintro i (⟨a, ha, rfl⟩ | ⟨o, ho, rfl⟩)
    · exact ⟨hdepth, hatts a ha⟩
    · exact ⟨hdepths o ho, hops o ho⟩

/-- A timestamp is read from what is written of it under just the limits of the reader. -/
theorem readTimestamp_exactly {t : OtsTimestamp} (hsound : t.Sound D) (hfull : t.Full) (hsafe : t.Safe)
    (fuel depth nodes : ℕ) (rest : Bytes) (hfuel : 3 * t.code.length + 3 ≤ fuel) :
    Exactly (readTimestamp D fuel t.msg depth ⟨t.code ++ rest, nodes⟩)
      (depth + t.depth ≤ maxDepth ∧ nodes + t.entries ≤ maxNodes ∧ t.Fits)
      (t, ⟨rest, nodes + t.entries⟩) := by
  induction hsound generalizing fuel depth nodes rest with
  | @mk m as os hatts hmsgs hops ih =>
    cases hfull with
    | mk hsome hfulls =>
    obtain ⟨fuel, rfl⟩ : ∃ f, fuel = f + 1 := ⟨fuel - 1, by omega⟩
    obtain ⟨hsafe, hsafes⟩ := (forall_attestationsAt OtsAttestation.Safe).mp hsafe
    have hcode : (OtsTimestamp.mk m as os).code =
        frame ((OtsTimestamp.mk m as os).items.map OtsItem.code) := by
      rw [OtsTimestamp.code, codesOf_eq, OtsTimestamp.items, List.map_append, List.map_map, List.map_map]
      rfl
    have hentries : ((OtsTimestamp.mk m as os).items.map OtsItem.entries).sum =
        (OtsTimestamp.mk m as os).entries := by
      rw [OtsTimestamp.entries, entriesOf_eq, OtsTimestamp.items, List.map_append, List.sum_append,
        List.map_map, List.map_map]
      congr 1
      rw [show OtsItem.entries ∘ OtsItem.attestation = fun _ => 1 from rfl]
      simp
    have hne : (OtsTimestamp.mk m as os).items ≠ [] := by
      rw [OtsTimestamp.items]
      intro hnil
      rw [List.append_eq_nil_iff, List.map_eq_nil_iff, List.map_eq_nil_iff] at hnil
      exact hsome.elim (fun h => h hnil.1) (fun h => h hnil.2)
    have hpush : (OtsTimestamp.mk m as os).items.foldl OtsTimestamp.push (newTimestamp m) =
        .mk m as os := foldl_push m [] as [] os
    rw [hcode] at hfuel ⊢
    rw [readTimestamp]
    by_cases hdepth : depth ≤ maxDepth
    · have hitems : ∀ i ∈ (OtsTimestamp.mk m as os).items, ReadsItem D m depth i := by
        intro i hi
        rcases List.mem_append.mp hi with hi | hi
        · obtain ⟨a, ha, rfl⟩ := List.mem_map.mp hi
          exact readsItem_attestation hdepth (hatts a ha) (hsafe a ha)
        · obtain ⟨o, ho, rfl⟩ := List.mem_map.mp hi
          exact readsItem_op (hmsgs o ho).1 (hmsgs o ho).2
            (fun f d n r hf => ih o ho (hfulls o ho) (hsafes o ho) f d n r hf)
      have hread := readItems_exactly (t := newTimestamp m) hne hitems fuel rest nodes (by omega)
      rw [hpush, hentries] at hread
      rw [if_neg (by omega)]
      exact hread.congr (items_within hdepth)
    · rw [if_pos (by omega)]
      exact ⟨fun h => absurd (le_trans (Nat.le_add_right _ _) h.1) hdepth, fun _ h => nomatch h⟩

/-! ## The order of the file -/

/-- The branches in the order of the file, each with its own items in that order. -/
theorem sortedOps_perm (os : List (OtsOp × OtsTimestamp)) :
    (sortOn (fun o => opBytes o.1) (sortedOf os)).Perm (os.map fun o => (o.1, o.2.sorted)) := by
  rw [← sortedOf_eq]
  exact sortOn_perm _ _

theorem attestationsAt_sorted (t : OtsTimestamp) : (attestationsAt t.sorted).Perm (attestationsAt t) := by
  induction t using OtsTimestamp.byOps with
  | h m as os ih =>
    rw [OtsTimestamp.sorted, attestationsAt, attestationsAt, attestationsOf_eq, attestationsOf_eq]
    refine ((sortOn_perm _ as).map _).append ?_
    refine ((sortedOps_perm os).flatMap_right _).trans ?_
    rw [List.flatMap_map]
    exact List.Perm.flatMap_left _ ih

theorem entries_sorted (t : OtsTimestamp) : t.sorted.entries = t.entries := by
  induction t using OtsTimestamp.byOps with
  | h m as os ih =>
    rw [OtsTimestamp.sorted, OtsTimestamp.entries, OtsTimestamp.entries, entriesOf_eq, entriesOf_eq,
      (sortOn_perm _ as).length_eq, ((sortedOps_perm os).map _).sum_eq, List.map_map]
    congr 2
    exact List.map_congr_left fun o ho => congrArg (1 + ·) (ih o ho)

theorem depth_sorted (t : OtsTimestamp) : t.sorted.depth = t.depth := by
  induction t using OtsTimestamp.byOps with
  | h m as os ih =>
    rw [OtsTimestamp.sorted, OtsTimestamp.depth, OtsTimestamp.depth]
    have hle : ∀ n, depthOf (sortOn (fun o => opBytes o.1) (sortedOf os)) ≤ n ↔ depthOf os ≤ n := by
      intro n
      rw [depthOf_le, depthOf_le]
      have hmem := fun o => (sortedOps_perm os).mem_iff (a := o)
      constructor
      · intro h o ho
        rw [← ih o ho]
        exact h (o.1, o.2.sorted) ((hmem _).mpr (List.mem_map_of_mem ho))
      · intro h o ho
        obtain ⟨p, hp, rfl⟩ := List.mem_map.mp ((hmem o).mp ho)
        rw [ih p hp]
        exact h p hp
    exact le_antisymm ((hle _).mpr (le_refl _)) ((hle _).mp (le_refl _))

theorem safe_sorted (t : OtsTimestamp) : t.sorted.Safe ↔ t.Safe :=
  forall_congr' fun a => by rw [(attestationsAt_sorted t).mem_iff]

theorem fits_sorted (t : OtsTimestamp) : t.sorted.Fits ↔ t.Fits :=
  forall_congr' fun a => by rw [(attestationsAt_sorted t).mem_iff]

theorem msg_sorted (t : OtsTimestamp) : t.sorted.msg = t.msg := by
  cases t
  rfl

theorem OtsTimestamp.Full.sorted {t : OtsTimestamp} (h : t.Full) : t.sorted.Full := by
  induction h with
  | @mk m as os hsome hops ih =>
    refine .mk ?_ fun o ho => ?_
    · rcases hsome with h | h
      · refine .inl fun hnil => h ?_
        have := (sortOn_perm OtsAttestation.code as).length_eq
        rw [hnil] at this
        exact List.length_eq_zero_iff.mp this.symm
      · refine .inr fun hnil => h ?_
        have := (sortedOps_perm os).length_eq
        rw [hnil, List.length_map] at this
        exact List.length_eq_zero_iff.mp this.symm
    · obtain ⟨p, hp, rfl⟩ := List.mem_map.mp ((sortedOps_perm os).mem_iff.mp ho)
      exact ih p hp

theorem OtsTimestamp.Sound.sorted {t : OtsTimestamp} (h : t.Sound D) : t.sorted.Sound D := by
  induction h with
  | @mk m as os hatts hmsgs hops ih =>
    refine .mk (fun a ha => hatts a ((sortOn_perm _ as).mem_iff.mp ha)) (fun o ho => ?_) fun o ho => ?_
    · obtain ⟨p, hp, rfl⟩ := List.mem_map.mp ((sortedOps_perm os).mem_iff.mp ho)
      rw [msg_sorted]
      exact hmsgs p hp
    · obtain ⟨p, hp, rfl⟩ := List.mem_map.mp ((sortedOps_perm os).mem_iff.mp ho)
      exact ih p hp

/-! ## Files -/

/-- What is written of a file. -/
def OtsTimestamp.file (t : OtsTimestamp) : Bytes :=
  otsMagic ++ varuintBytes otsVersion ++ opTag .sha256 :: t.msg ++ t.sorted.code

/-- The limits that the reader sets and the heights that can be written. -/
structure OtsTimestamp.Within (t : OtsTimestamp) : Prop where
  entries : t.entries ≤ maxNodes
  depth : t.depth ≤ maxDepth
  safe : t.Safe
  fits : t.Fits

variable (D) in
/-- A stored file is accepted and has exactly the same attestations. -/
def OtsTimestamp.ReadsBack (t : OtsTimestamp) : Prop :=
  ∃ bs t', serializeOtsFile t = .ok bs ∧ parseOtsFile D bs = .ok t' ∧
    ∀ a, a ∈ attestationsAt t' ↔ a ∈ attestationsAt t

theorem serializeOtsFile_exactly {t : OtsTimestamp} (hmsg : t.msg.length = 32) (hfull : t.Full) :
    Exactly (serializeOtsFile t) t.Safe t.file := by
  unfold serializeOtsFile
  rw [if_neg (not_not_intro hmsg)]
  exact (writeTimestamp_exactly hfull).map _

theorem parseOtsFile_exactly {t : OtsTimestamp} (hmsg : t.msg.length = 32) (hsound : t.Sound D)
    (hfull : t.Full) (hsafe : t.Safe) :
    Exactly (parseOtsFile D t.file) (t.depth ≤ maxDepth ∧ t.entries ≤ maxNodes ∧ t.Fits) t.sorted := by
  have hread := readTimestamp_exactly hsound.sorted hfull.sorted ((safe_sorted t).mpr hsafe)
    (fuelFor t.file) 0 0 [] (by
      unfold fuelFor OtsTimestamp.file
      simp only [List.length_append, List.length_cons]
      omega)
  rw [List.append_nil, msg_sorted, entries_sorted, depth_sorted, fits_sorted, Nat.zero_add, Nat.zero_add]
    at hread
  have hfile : t.file = otsMagic ++ (varuintBytes otsVersion ++ opTag .sha256 ::
      (t.msg ++ t.sorted.code)) := by
    unfold OtsTimestamp.file
    simp [List.append_assoc]
  unfold parseOtsFile
  generalize fuelFor t.file = fuel at hread ⊢
  rw [hfile]
  refine Exactly.then (reader_bytes otsMagic _ 0) ?_
  dsimp only
  rw [if_neg (not_not_intro rfl)]
  refine Exactly.then (varuint_bytes (by decide) _ 0) ?_
  dsimp only
  rw [if_neg (not_not_intro rfl)]
  refine Exactly.then (a := (opTag .sha256, ⟨t.msg ++ t.sorted.code, 0⟩)) rfl ?_
  dsimp only
  rw [if_neg (not_not_intro rfl)]
  have hdigest := reader_bytes t.msg t.sorted.code 0
  rw [hmsg] at hdigest
  refine Exactly.then hdigest ?_
  dsimp only
  exact (hread.bind (Exactly.ok t.sorted)).congr (and_iff_left trivial)

/-- A file reads back just when its timestamp is within the limits. -/
theorem readsBack_iff {t : OtsTimestamp} (hmsg : t.msg.length = 32) (hsound : t.Sound D)
    (hfull : t.Full) : t.ReadsBack D ↔ t.Within := by
  have hwrite := serializeOtsFile_exactly hmsg hfull
  constructor
  · rintro ⟨bs, t', hbs, ht', _⟩
    obtain ⟨hsafe, rfl⟩ := hwrite.of_ok bs hbs
    obtain ⟨⟨hdepth, hentries, hfits⟩, _⟩ := (parseOtsFile_exactly hmsg hsound hfull hsafe).of_ok t' ht'
    exact ⟨hentries, hdepth, hsafe, hfits⟩
  · rintro ⟨hentries, hdepth, hsafe, hfits⟩
    refine ⟨t.file, t.sorted, hwrite.of_cond hsafe, ?_, fun a => (attestationsAt_sorted t).mem_iff⟩
    exact (parseOtsFile_exactly hmsg hsound hfull hsafe).of_cond ⟨hdepth, hentries, hfits⟩

end Digests

end Klick.Ots
