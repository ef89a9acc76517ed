-- What the choice of coins finds: a selection that pays the amount with its fee, and none only
-- where no coins at all would pay. The largest coins first are at least as good as any others.
import Klick.CoinSelect

open Js

namespace Klick

/-! ## The largest first -/

section Largest

variable {α : Type} {f : α → ℕ}

/-- In a falling list, a beginning without the first member has no larger sum. -/
theorem sum_take_tail_le {a : α} {l : List α} (h : ∀ b ∈ l, f b ≤ f a) (k : ℕ) :
    ((l.take k).map f).sum ≤ (((a :: l).take k).map f).sum := by
  cases k with
  | zero => simp
  | succ k =>
    rw [List.take_succ_cons, List.map_cons, List.sum_cons, List.take_add_one, List.map_append,
      List.sum_append, add_comm]
    apply Nat.add_le_add_right
    cases hk : l[k]? with
    | none => simp
    | some b => simpa using h b (List.mem_of_getElem? hk)

/-- In a falling list, no sublist has a larger sum than the beginning of its length. -/
theorem sum_le_sum_take {s l : List α} (h : s.Sublist l) (hl : l.Pairwise fun a b => f b ≤ f a) :
    (s.map f).sum ≤ ((l.take s.length).map f).sum := by
  induction h with
  | slnil => simp
  | cons a hs ih =>
    obtain ⟨ha, hl⟩ := List.pairwise_cons.mp hl
    exact (ih hl).trans (sum_take_tail_le ha _)
  | cons_cons a hs ih =>
    obtain ⟨-, hl⟩ := List.pairwise_cons.mp hl
    simpa using ih hl

end Largest

/-! ## The loop -/

theorem feeFor_mono {v w : ℕ} (h : v ≤ w) {rate : ℚ} (hrate : 0 < rate) :
    feeFor v rate ≤ feeFor w rate := by
  unfold feeFor
  apply Nat.ceil_mono
  apply fl_mono
  have hcast : (v : ℚ) ≤ w := by exact_mod_cast h
  exact mul_le_mul_of_nonneg_right hcast hrate.le

/-- The fee of a transaction of so many inputs and outputs. -/
def sizeFee (rate : ℚ) (inputs outputs : ℕ) : ℕ := feeFor (estimateVsize inputs outputs) rate

theorem sizeFee_mono {rate : ℚ} (hrate : 0 < rate) (inputs : ℕ) :
    sizeFee rate inputs 1 ≤ sizeFee rate inputs 2 := by
  apply feeFor_mono _ hrate
  rw [estimateVsize_eq, estimateVsize_eq]
  omega

def total (coins : List Utxo) : ℕ := (coins.map (·.value)).sum

/-- The outputs of a selection: the payment, and the change if there is any. -/
def outputsOf (change : ℕ) : ℕ := if change = 0 then 1 else 2

/-- A selection pays the amount and its fee, and nothing is lost. -/
structure Pays (amount : ℕ) (rate : ℚ) (inputs : List Utxo) (fee change : ℕ) : Prop where
  sum : total inputs = amount + fee + change
  noDust : change = 0 ∨ dustP2wpkh ≤ change
  enough : sizeFee rate inputs.length (outputsOf change) ≤ fee
  /-- No more than dust and what an output for the change costs is given away. -/
  excess : fee < sizeFee rate inputs.length (outputsOf change) + dustP2wpkh +
    (sizeFee rate inputs.length 2 - sizeFee rate inputs.length 1)

/-- One turn of the loop. -/
theorem pickCoins_cons (amount : ℕ) (rate : ℚ) (before us : List Utxo) (u : Utxo) :
    pickCoins amount rate before (total before) (u :: us) =
      let picked := before ++ [u]
      let withChange := sizeFee rate picked.length 2
      if amount + withChange ≤ total picked then
        if dustP2wpkh ≤ total picked - amount - withChange then
          .picked picked withChange (total picked - amount - withChange)
        else .picked picked (total picked - amount) 0
      else if amount + sizeFee rate picked.length 1 ≤ total picked then
        .picked picked (total picked - amount) 0
      else pickCoins amount rate picked (total picked) us := by
  have htotal : total before + u.value = total (before ++ [u]) := by simp [total]
  rw [pickCoins, htotal]
  rfl

/-- What the loop picks are the coins so far and a beginning of those that are left. -/
theorem pays_of_pickCoins {amount : ℕ} {rate : ℚ} (hrate : 0 < rate) {before us inputs : List Utxo}
    {fee change : ℕ}
    (h : pickCoins amount rate before (total before) us = .picked inputs fee change) :
    inputs <+: before ++ us ∧ Pays amount rate inputs fee change := by
  induction us generalizing before with
  | nil => cases h
  | cons u us ih =>
    have hfirst : before ++ [u] <+: before ++ u :: us := ⟨us, by simp⟩
    have hmono := sizeFee_mono hrate (before ++ [u]).length
    rw [pickCoins_cons] at h
    dsimp only at h
    split_ifs at h with hwith hdust hno
    · cases h
      have hpos : total (before ++ [u]) - amount -
          sizeFee rate (before ++ [u]).length 2 ≠ 0 := by
        unfold dustP2wpkh at hdust
        omega
      refine ⟨hfirst, ?_, .inr hdust, ?_, ?_⟩
      · omega
      · rw [outputsOf, if_neg hpos]
      · rw [outputsOf, if_neg hpos]
        unfold dustP2wpkh
        omega
    · cases h
      refine ⟨hfirst, ?_, .inl rfl, ?_, ?_⟩
      · omega
      · rw [outputsOf, if_pos rfl]
        omega
      · rw [outputsOf, if_pos rfl]
        omega
    · cases h
      refine ⟨hfirst, ?_, .inl rfl, ?_, ?_⟩
      · omega
      · rw [outputsOf, if_pos rfl]
        omega
      · rw [outputsOf, if_pos rfl]
        omega
    · obtain ⟨hinputs, hpays⟩ := ih h
      rw [List.append_assoc] at hinputs
      exact ⟨hinputs, hpays⟩

/-- Where the loop picks nothing, no beginning of the coins pays for a transaction without
change. -/
theorem short_of_pickCoins {amount : ℕ} {rate : ℚ} {before us : List Utxo}
    (h : pickCoins amount rate before (total before) us = .insufficient) {k : ℕ} (hk : 0 < k)
    (hle : k ≤ us.length) : total (before ++ us.take k) <
      amount + sizeFee rate (before.length + k) 1 := by
  induction us generalizing before k with
  | nil =>
    rw [List.length_nil] at hle
    omega
  | cons u us ih =>
    rw [pickCoins_cons] at h
    dsimp only at h
    split_ifs at h with hwith hdust hno
    obtain ⟨k, rfl⟩ : ∃ m, k = m + 1 := ⟨k - 1, by omega⟩
    rw [List.take_succ_cons]
    by_cases hzero : k = 0
    · subst hzero
      simpa using hno
    · have hrest := ih h (k := k) (by omega) (by simpa using hle)
      rw [List.append_assoc, List.length_append, List.length_singleton] at hrest
      rwa [Nat.add_assoc, Nat.add_comm 1 k] at hrest

theorem pickCoins_ne_feeRate {amount : ℕ} {rate : ℚ} {before us : List Utxo} :
    pickCoins amount rate before (total before) us ≠ .feeRate := by
  induction us generalizing before with
  | nil => exact nofun
  | cons u us ih =>
    rw [pickCoins_cons]
    dsimp only
    split_ifs
    · exact nofun
    · exact nofun
    · exact nofun
    · exact ih

/-! ## The choice -/

theorem sortCoins_perm (utxos : List Utxo) : (sortCoins utxos).Perm utxos :=
  List.perm_insertionSort _ utxos

theorem sortCoins_falls (utxos : List Utxo) :
    (sortCoins utxos).Pairwise fun a b => b.value ≤ a.value := by
  have : Std.Total fun a b : Utxo => b.value ≤ a.value := ⟨fun a b => le_total b.value a.value⟩
  have : IsTrans Utxo fun a b => b.value ≤ a.value := ⟨fun _ _ _ hab hbc => hbc.trans hab⟩
  exact List.pairwise_insertionSort _ utxos

/-- No coins of the list have a larger sum than as many of the largest. -/
theorem total_le_largest {s utxos : List Utxo} (h : s.Subperm utxos) :
    total s ≤ total ((sortCoins utxos).take s.length) := by
  obtain ⟨t, hperm, hsub⟩ := h.trans (sortCoins_perm utxos).symm.subperm
  have hle := sum_le_sum_take hsub (sortCoins_falls utxos)
  unfold total
  rwa [(hperm.map _).sum_eq, hperm.length_eq] at hle

/-- **The choice is sound, complete and bounded.** A selection is made of distinct coins of the
list, and pays the amount with its fee; and there is none only where no coins of the list pay the
amount and the fee of a transaction without change. -/
theorem selectCoins_is_sound_and_complete {utxos : List Utxo} (hdistinct : utxos.Nodup)
    {amount : ℕ} (hamount : 0 < amount) {rate : ℚ} (hrate : 0 < rate) :
    (∀ inputs fee change, selectCoins utxos amount rate = .picked inputs fee change →
      inputs.Nodup ∧ inputs ⊆ utxos ∧ Pays amount rate inputs fee change) ∧
    (selectCoins utxos amount rate = .insufficient → ∀ s : List Utxo, s.Subperm utxos →
      total s < amount + sizeFee rate s.length 1) ∧
    selectCoins utxos amount rate ≠ .feeRate := by
  have hsorted := sortCoins_perm utxos
  unfold selectCoins
  rw [if_pos hrate]
  refine ⟨?_, ?_, ?_⟩
  · intro inputs fee change h
    have hpick : pickCoins amount rate [] (total []) (sortCoins utxos) =
      .picked inputs fee change := h
    obtain ⟨hinputs, hpays⟩ := pays_of_pickCoins hrate hpick
    rw [List.nil_append] at hinputs
    exact ⟨hinputs.sublist.nodup (hsorted.nodup_iff.mpr hdistinct),
      fun u hu => hsorted.subset (hinputs.subset hu), hpays⟩
  · intro h s hs
    have hpick : pickCoins amount rate [] (total []) (sortCoins utxos) = .insufficient := h
    by_cases hnil : s = []
    · subst hnil
      have hzero : total [] = 0 := rfl
      omega
    · have hlength : s.length ≤ (sortCoins utxos).length := by
        rw [hsorted.length_eq]
        exact hs.length_le
      have hshort := short_of_pickCoins hpick (List.length_pos_of_ne_nil hnil) hlength
      rw [List.nil_append, List.length_nil, Nat.zero_add] at hshort
      exact (total_le_largest hs).trans_lt hshort
  · change pickCoins amount rate [] (total []) (sortCoins utxos) ≠ .feeRate
    exact pickCoins_ne_feeRate

/-- A fee of one per byte is the size. -/
theorem feeFor_one {vsize : ℕ} (h : vsize ≤ 2 ^ 53) : feeFor vsize 1 = vsize := by
  unfold feeFor
  have hint : ((vsize : ℤ) : ℚ) = vsize := Int.cast_natCast vsize
  rw [mul_one, ← hint, fl_intCast (by rw [Nat.abs_cast]; exact_mod_cast h), hint, Nat.ceil_natCast]

/-- Two coins of one transaction. -/
def sampleCoins : List Utxo := [⟨js "a", 0, 700, 0, 0⟩, ⟨js "a", 1, 40000, 0, 1⟩]

theorem selectCoins_sampleCoins :
    selectCoins sampleCoins 10000 1 = .picked [⟨js "a", 1, 40000, 0, 1⟩] 141 29859 := by
  have hsorted : sortCoins sampleCoins = [⟨js "a", 1, 40000, 0, 1⟩, ⟨js "a", 0, 700, 0, 0⟩] := by
    decide
  have hfee : sizeFee 1 1 2 = 141 := by
    unfold sizeFee
    rw [estimateVsize_eq, feeFor_one (by norm_num)]
  have hpick := pickCoins_cons 10000 1 [] [⟨js "a", 0, 700, 0, 0⟩] ⟨js "a", 1, 40000, 0, 1⟩
  unfold selectCoins
  rw [if_pos one_pos, hsorted]
  refine hpick.trans ?_
  simp [hfee, total, dustP2wpkh]

theorem sample_coins_are_picked : ∃ inputs fee change,
    selectCoins sampleCoins 10000 1 = .picked inputs fee change ∧
      inputs.Nodup ∧ inputs ⊆ sampleCoins ∧ Pays 10000 1 inputs fee change :=
  ⟨_, _, _, selectCoins_sampleCoins, (@selectCoins_is_sound_and_complete sampleCoins
    (by decide) 10000 (by norm_num) 1 one_pos).1 _ _ _ selectCoins_sampleCoins⟩

end Klick
