-- What a Bitcoin transaction takes and pays (`buildBtcSpend` and `Signer.signBtc`):
-- coins of the account, each once, the payment of the intent or a return of it
-- all, the change at an own index, and the fee as what is left.
import Klick.Guards

open Js

namespace Klick

/-! ## The coins -/

/-- The coin of an input: an output that was read, to a key of the account. -/
structure OwnCoin (B : BtcLib) (keyAt : ℕ → ℕ → Except KeyError BtcKey) (input : BtcSpendInput)
    (tx : TxInput) : Prop where
  txid : tx.txid = input.txid
  vout : tx.vout = input.vout
  output : ∃ prev out, B.fromRaw (ofHex input.prevTxHex) = some prev ∧ prev.id = input.txid ∧
    prev.outputs[input.vout]? = some out ∧ out.script = some tx.script ∧
    out.amount = some tx.amount
  key : keyAt input.branch input.index = .ok tx.key
  script : tx.script = B.p2wpkhScript tx.key.pub

def TxPlan.coins (p : TxPlan) : List (Text × ℕ) := p.inputs.map fun t => (t.txid, t.vout)

/-- The sum of the inputs. -/
def TxPlan.total (p : TxPlan) : ℕ := (p.inputs.map (·.amount)).sum

def TxPlan.changeAmount (p : TxPlan) : ℕ := p.change.elim 0 Prod.snd

section Inputs

variable {B : BtcLib} {keyAt : ℕ → ℕ → Except KeyError BtcKey}

theorem spendInput_own {seen : List Text} {input : BtcSpendInput} {tx : TxInput}
    (h : spendInput B keyAt seen input = .ok tx) : OwnCoin B keyAt input tx := by
  unfold spendInput spendCheck keyed at h
  simp only [bind_eq_ok, check_eq_ok, exists_const, orRefuse_eq_ok, mapError_eq_ok, pure_eq_ok,
    decide_eq_true_eq] at h
  obtain ⟨-, -, prev, hprev, hid, out, hout, script, hscript, amount, hamount, key, hkey, hown,
    rfl⟩ := h
  exact ⟨rfl, rfl, ⟨prev, out, hprev, hid, hout, hscript, hamount⟩, hkey, hown⟩

/-- Every input takes a coin of the account. -/
theorem spendInputs_own {seen : List Text} {inputs : List BtcSpendInput} {txs : List TxInput}
    (h : spendInputs B keyAt seen inputs = .ok txs) :
    List.Forall₂ (OwnCoin B keyAt) inputs txs := by
  induction inputs generalizing seen txs with
  | nil =>
    cases h
    exact .nil
  | cons input inputs ih =>
    simp only [spendInputs, bind_eq_ok, pure_eq_ok] at h
    obtain ⟨tx, htx, rest, hrest, rfl⟩ := h
    exact .cons (spendInput_own htx) (ih hrest)

/-- Inputs with different names take different coins. -/
theorem coins_nodup {inputs : List BtcSpendInput} {txs : List TxInput}
    (h : List.Forall₂ (OwnCoin B keyAt) inputs txs)
    (hn : (inputs.map (·.outpoint)).Nodup) :
    (txs.map fun t => (t.txid, t.vout)).Nodup := by
  have hname : inputs.map (·.outpoint) =
      (txs.map fun t => (t.txid, t.vout)).map fun c => c.1 ++ ch ':' :: decimal c.2 := by
    clear hn
    induction h with
    | nil => rfl
    | cons hcoin _ ih =>
      rw [List.map_cons, List.map_cons, List.map_cons, ← ih, hcoin.txid, hcoin.vout]
      rfl
  rw [hname] at hn
  exact hn.of_map

end Inputs

/-! ## Building -/

/-- What a transaction pays of a request: nothing is lost between its inputs and outputs. -/
structure Conserves (B : BtcLib) (keyAt : ℕ → ℕ → Except KeyError BtcKey) (req : BtcSpendRequest)
    (p : TxPlan) : Prop where
  own : List.Forall₂ (OwnCoin B keyAt) req.inputs p.inputs
  distinct : p.coins.Nodup
  destination : p.destination = req.destination
  amount : (p.amount : ℤ) = req.amount
  paid : 0 < p.amount
  change : ∀ c, p.change = some c → dustP2wpkh ≤ c.2 ∧ ∃ index key,
    req.changeIndex = some index ∧ keyAt 1 index = .ok key ∧ c.1 = B.p2wpkhScript key.pub
  balance : p.total = p.amount + p.changeAmount + req.fee
  feeCap : req.fee ≤ req.feeCap

/-- The output for the change: none at all, or one of the whole change at the index. -/
theorem changeOutput_eq_ok {B : BtcLib} {keyAt : ℕ → ℕ → Except KeyError BtcKey}
    {changeIndex : Option ℕ} {change : ℤ} {output : Option (Bytes × ℕ)}
    (h : changeOutput B keyAt changeIndex change = .ok output) (h0 : 0 ≤ change) :
    (output.elim 0 Prod.snd : ℕ) = change ∧ ∀ c, output = some c → dustP2wpkh ≤ c.2 ∧
      ∃ index key, changeIndex = some index ∧ keyAt 1 index = .ok key ∧
        c.1 = B.p2wpkhScript key.pub := by
  unfold changeOutput spendCheck keyed at h
  by_cases hpos : 0 < change
  · simp only [if_pos hpos, bind_eq_ok, check_eq_ok, exists_const, orRefuse_eq_ok, mapError_eq_ok,
      pure_eq_ok, decide_eq_true_eq] at h
    obtain ⟨hdust, index, hindex, key, hkey, rfl⟩ := h
    refine ⟨Int.toNat_of_nonneg h0, ?_⟩
    rintro _ ⟨⟩
    refine ⟨?_, index, key, hindex, hkey, rfl⟩
    apply Int.ofNat_le.mp
    rw [Int.toNat_of_nonneg h0]
    exact hdust
  · rw [if_neg hpos] at h
    obtain rfl := pure_eq_ok.mp h
    refine ⟨?_, nofun⟩
    rw [le_antisymm (not_lt.mp hpos) h0]
    rfl

/-- A transaction that is built conserves what it takes. -/
theorem buildBtcSpend_conserves {A : AddressLib} {B : BtcLib} {req : BtcSpendRequest}
    {keyAt : ℕ → ℕ → Except KeyError BtcKey} {s : BtcSpend}
    (h : buildBtcSpend A B req keyAt = .ok s) :
    ∃ p tx, B.sign p = some tx ∧ s.raw = tx.raw ∧ s.txid = tx.txid ∧ s.fee = req.fee ∧
      s.change = p.changeAmount ∧ Conserves B keyAt req p := by
  obtain ⟨inputs, tx, hb⟩ := buildBtcSpend_built.mp h
  obtain ⟨output, houtput, hsign⟩ := hb.signs
  obtain ⟨hamount, hchange⟩ := changeOutput_eq_ok houtput hb.change
  have hresult := hb.result
  subst hresult
  refine ⟨_, tx, hsign, rfl, rfl, rfl, ?_, ?_⟩
  · dsimp only [TxPlan.changeAmount]
    omega
  · have hown := spendInputs_own hb.reads
    have hpos := hb.amount
    have hnat := Int.toNat_of_nonneg hpos.le
    refine ⟨hown, coins_nodup hown (spendInputs_fresh hb.reads).1, rfl, hnat, ?_, hchange, ?_,
      hb.feeCap⟩
    · dsimp only
      omega
    · have hdiff : req.change inputs =
          ((inputs.map (·.amount)).sum : ℕ) - req.amount - req.fee := rfl
      simp only [TxPlan.total, TxPlan.changeAmount]
      omega

/-! ## Signing -/

/-- A payment to the destination of an intent, and its change at the index that is recorded. -/
structure PaysIntent (B : BtcLib) (keyAt : ℕ → ℕ → Except KeyError BtcKey) (i : Payout)
    (p : TxPlan) (index : Option ℕ) : Prop where
  destination : p.destination = i.destination
  amount : p.amount = i.amount
  noChange : p.change = none → index = none
  change : ∀ c, p.change = some c → dustP2wpkh ≤ c.2 ∧ ∃ n key, index = some n ∧
    keyAt 1 n = .ok key ∧ c.1 = B.p2wpkhScript key.pub

/-- A return of it all to the own address at the index that is recorded. -/
structure ReturnsAll (B : BtcLib) (keyAt : ℕ → ℕ → Except KeyError BtcKey) (i : Payout)
    (p : TxPlan) (index : Option ℕ) : Prop where
  noChange : p.change = none
  paid : 0 < p.amount
  own : ∃ n key, index = some n ∧ keyAt 1 n = .ok key ∧
    p.destination = B.p2wpkhAddress i.network.live key.pub

/-- What a signature of a plan stands for: a transaction that was signed, and its index. -/
structure SignedSpend (B : BtcLib) (keyAt : ℕ → ℕ → Except KeyError BtcKey) (i : Payout)
    (mode : SignMode) (draft : SpentDraft) (inputs : List BtcSpendInput) (p : TxPlan)
    (index : Option ℕ) : Prop where
  signed : ∃ tx, B.sign p = some tx ∧ draft.raw = tx.raw ∧ draft.txid = tx.txid
  recorded : draft.spent = .bitcoin (inputs.map (·.outpoint)) index
  own : List.Forall₂ (OwnCoin B keyAt) inputs p.inputs
  distinct : p.coins.Nodup
  pays : mode.isCancel = false → PaysIntent B keyAt i p index
  returns : mode.isCancel = true → ReturnsAll B keyAt i p index
  balance : p.total = p.amount + p.changeAmount + draft.fee
  feeCap : draft.fee ≤ i.feeCap

/-- The index that a signature takes if it needs one. -/
def indexFor (s : SignerState) (accountId : Text) (replaced : Replaced) : ℕ :=
  (replaced.bind (·.1.signed.changeIndex)).getD (nextChangeOf s accountId)

section Signing

variable {P : Platform} {g : Signer} {r : IntentRecord} {i : Payout}

/-- The target of a payment, or of a return. -/
theorem btcTarget_eq_ok {keyAt : ℕ → ℕ → Except KeyError BtcKey} {mode : SignMode}
    {inputs : List BtcSpendInput} {fee : ℕ} {replaced : Replaced} {target : BtcTarget}
    (h : btcTarget P g r i keyAt mode inputs fee replaced = .ok target)
    (hmode : mode.isFirst = replaced.isNone) :
    (mode.isCancel = false ∧
      target = ⟨i.destination, i.amount, some (indexFor g.state i.accountId replaced), none⟩) ∨
    (mode.isCancel = true ∧ ∃ total key, prevTotal P.btc inputs = .ok total ∧
      keyAt 1 (indexFor g.state i.accountId replaced) = .ok key ∧
      target = ⟨P.btc.p2wpkhAddress i.network.live key.pub, (total : ℤ) - fee, none,
        some (indexFor g.state i.accountId replaced)⟩) := by
  unfold btcTarget at h
  cases replaced with
  | none =>
    simp only [bind_eq_ok, pure_eq_ok] at h
    obtain ⟨_, -, rfl⟩ := h
    left
    refine ⟨?_, rfl⟩
    cases mode with
    | first => rfl
    | _ => cases hmode
  | some pair =>
    obtain ⟨first, last⟩ := pair
    simp only [bind_eq_ok, check_eq_ok, exists_const] at h
    obtain ⟨-, -, h⟩ := h
    by_cases hc : mode.isCancel = true
    · rw [if_pos hc] at h
      simp only [bind_eq_ok, check_eq_ok, exists_const, internal_eq_ok, pure_eq_ok] at h
      obtain ⟨total, htotal, key, hkey, -, rfl⟩ := h
      exact .inr ⟨hc, total, key, htotal, hkey, rfl⟩
    · rw [if_neg hc] at h
      obtain rfl := pure_eq_ok.mp h
      exact .inl ⟨by simpa using hc, rfl⟩

/-- **Every signature of a plan** stands for a transaction that takes coins of the
account, and pays the intent or returns it all. -/
theorem signBtc_spends {accountIndex : ℕ} {mode : SignMode} {plan : Value} {policy : Policy}
    {replaced : Replaced} {draft : SpentDraft}
    (h : signBtc P g r i accountIndex mode plan policy replaced = .ok draft)
    (hmode : mode.isFirst = replaced.isNone) :
    ∃ keyAt inputs p index, g.keys.btcKeys P.keys i.network accountIndex = .ok keyAt ∧
      SignedSpend P.btc keyAt i mode draft inputs p index ∧
      ∀ n, index = some n → n = indexFor g.state i.accountId replaced := by
  unfold signBtc at h
  simp only [bind_eq_ok, spent_eq_ok, internal_eq_ok, pure_eq_ok] at h
  obtain ⟨inputs, -, fee, -, keyAt, hkeyAt, target, htarget, s, hs, rfl⟩ := h
  obtain ⟨p, tx, hsign, hraw, htxid, hfee, hchange, hp⟩ := buildBtcSpend_conserves hs
  have hsigned : ∃ tx, P.btc.sign p = some tx ∧ s.raw = tx.raw ∧ s.txid = tx.txid :=
    ⟨tx, hsign, hraw, htxid⟩
  obtain ⟨hown, hdistinct, hdest, hamount, hpaid, hindexed, hbalance, hcap⟩ := hp
  rw [← hfee] at hbalance hcap
  rcases btcTarget_eq_ok htarget hmode with ⟨hc, rfl⟩ | ⟨hc, total, key, htotal, hkey, rfl⟩
  · -- a payment: the index is recorded when there is change
    rw [if_neg (by rw [hc]; nofun)]
    refine ⟨keyAt, inputs, p, _, hkeyAt, ⟨hsigned, rfl, hown, hdistinct, fun _ => ?_,
      fun hf => absurd (hc.symm.trans hf) nofun, hbalance, hcap⟩, ?_⟩
    · refine ⟨hdest, Int.ofNat_inj.mp hamount, ?_, ?_⟩
      · intro hnone
        have hzero : s.change = 0 := by rw [hchange, TxPlan.changeAmount, hnone]; rfl
        rw [if_neg (by omega)]
      · intro c hsome
        obtain ⟨hdust, n, key, hn, hkey, hscript⟩ := hindexed c hsome
        have hpos : 0 < s.change := by
          rw [hchange, TxPlan.changeAmount, hsome]
          exact lt_of_lt_of_le (by decide) hdust
        refine ⟨hdust, n, key, ?_, hkey, hscript⟩
        rw [if_pos hpos]
        exact hn
    · intro n hn
      split at hn
      · exact (Option.some.inj hn).symm
      · cases hn
  · -- a return: all that the inputs take, less the fee
    simp only [if_pos hc]
    refine ⟨keyAt, inputs, p, _, hkeyAt, ⟨hsigned, rfl, hown, hdistinct,
      fun hf => absurd (hc.symm.trans hf) nofun, fun _ => ?_, hbalance, hcap⟩, ?_⟩
    · refine ⟨?_, hpaid, _, key, rfl, hkey, hdest⟩
      cases hcs : p.change with
      | none => rfl
      | some c =>
        obtain ⟨-, n, -, hn, -⟩ := hindexed c hcs
        cases hn
    · intro n hn
      exact (Option.some.inj hn).symm

end Signing

end Klick
