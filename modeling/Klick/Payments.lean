-- One payment for each intent. Signing again spends the coins or the nonce of the
-- first signature, the coins of two intents have none in common, and the nonces
-- of an account follow each other without a gap.
import Klick.Changes
import Klick.Executions

open Js

namespace Klick

/-! ## What the signatures of an intent spend -/

/-- Coins on a Bitcoin network, a nonce on an Ethereum network. -/
def Signed.OfChain (d : Signed) : Prop :=
  match d.spent with
  | .bitcoin .. => d.network.chain = .bitcoin
  | .ethereum .. => d.network.chain = .ethereum

/-- A signature spends what the first one spends, and no coin twice. -/
structure SpendsLike (first d : Signed) : Prop where
  nodup : d.outpoints.Nodup
  coins : ∀ o, o ∈ d.outpoints ↔ o ∈ first.outpoints
  nonce : d.nonce = first.nonce

/-- A first signature, and after it only others that spend the same. -/
structure OnePayment (xs : List Signature) : Prop where
  first : ∀ x ∈ xs.head?, x.signed.mode = .first
  later : ∀ x ∈ xs.tail, x.signed.mode.isFirst = false
  alike : ∀ first ∈ xs.head?, ∀ x ∈ xs, SpendsLike first.signed x.signed
  chain : ∀ x ∈ xs, x.signed.OfChain

theorem onePayment_nil : OnePayment [] where
  first _ h := absurd h (Option.not_mem_none _)
  later _ h := absurd h List.not_mem_nil
  alike _ h := absurd h (Option.not_mem_none _)
  chain _ h := absurd h List.not_mem_nil

theorem onePayment_first {x : Signature} (hmode : x.signed.mode = .first)
    (hnodup : x.signed.outpoints.Nodup) (hchain : x.signed.OfChain) : OnePayment [x] := by
  refine ⟨?_, fun y hy => absurd hy List.not_mem_nil, ?_, ?_⟩
  · rintro _ ⟨⟩
    exact hmode
  · rintro _ ⟨⟩ y hy
    rw [List.mem_singleton.mp hy]
    exact ⟨hnodup, fun _ => Iff.rfl, rfl⟩
  · intro y hy
    rw [List.mem_singleton.mp hy]
    exact hchain

theorem OnePayment.append {xs : List Signature} (h : OnePayment xs) {f x : Signature}
    (hf : xs.head? = some f) (hmode : x.signed.mode.isFirst = false)
    (hlike : SpendsLike f.signed x.signed) (hchain : x.signed.OfChain) :
    OnePayment (xs ++ [x]) := by
  obtain ⟨h1, h2, h3, h4⟩ := h
  cases xs with
  | nil => cases hf
  | cons y ys =>
    obtain rfl := Option.some.inj hf
    refine ⟨h1, ?_, ?_, ?_⟩
    · intro z hz
      rcases List.mem_append.mp hz with hz | hz
      · exact h2 z hz
      · rw [List.mem_singleton.mp hz]
        exact hmode
    · intro first hfirst z hz
      obtain rfl := Option.some.inj hfirst
      rcases List.mem_append.mp hz with hz | hz
      · exact h3 _ rfl z hz
      · rw [List.mem_singleton.mp hz]
        exact hlike
    · intro z hz
      rcases List.mem_append.mp hz with hz | hz
      · exact h4 z hz
      · rw [List.mem_singleton.mp hz]
        exact hchain

/-- The first signature of an intent stands at the head. -/
theorem OnePayment.head_of_first {r : IntentRecord} (h : OnePayment r.signatures) {f : Signature}
    (hf : r.first = some f) : r.signatures.head? = some f := by
  obtain ⟨h1, h2, -, -⟩ := h
  unfold IntentRecord.first at hf
  cases hs : r.signatures with
  | nil =>
    rw [hs] at hf
    cases hf
  | cons x xs =>
    rw [hs] at hf h1
    have hx := h1 x rfl
    rw [List.find?_cons_of_pos (by rw [hx]; rfl)] at hf
    rw [List.head?_cons, hf]

/-- The coins of a replacement are those of the first signature, each once. -/
theorem mem_iff_of_sameInputs {first : Signed} {outpoints : List Text} (hn : outpoints.Nodup)
    (h : sameInputs first outpoints = true) : ∀ o, o ∈ outpoints ↔ o ∈ first.outpoints := by
  unfold sameInputs at h
  simp only [Bool.and_eq_true, decide_eq_true_eq, List.all_eq_true] at h
  obtain ⟨hlen, hsub⟩ := h
  have hsub' : outpoints ⊆ first.outpoints.dedup := by
    intro o ho
    exact List.mem_dedup.mpr (hsub o ho)
  have hperm := (List.subperm_of_subset hn hsub').perm_of_length_le hlen.ge
  intro o
  rw [hperm.mem_iff, List.mem_dedup]

/-! ## Reserved coins and used nonces -/

theorem get_reserve (m : OrderedMap Text Text) (outpoints : List Text) (id o : Text) :
    (reserve m outpoints id).get o = if o ∈ outpoints then some id else m.get o := by
  unfold reserve
  induction outpoints generalizing m with
  | nil => simp
  | cons p ps ih =>
    rw [List.foldl_cons, ih, OrderedMap.get_set]
    by_cases hp : o ∈ ps
    · rw [if_pos hp, if_pos (List.mem_cons_of_mem _ hp)]
    · rw [if_neg hp]
      by_cases hop : o = p
      · rw [if_pos hop, if_pos (by rw [hop]; exact List.mem_cons_self)]
      · rw [if_neg hop, if_neg]
        intro hmem
        rcases List.mem_cons.mp hmem with h | h
        · exact hop h
        · exact hp h

def EventBody.signed? : EventBody → Option Signed
  | .signed d => some d
  | _ => none

/-- The signature of an event, if it is the first of its intent. -/
def EventBody.firstSigned? (body : EventBody) : Option Signed :=
  body.signed?.filter (·.mode.isFirst)

/-- The nonce that a first signature uses, on an account. -/
def EventBody.firstNonce? (accountId : Text) (body : EventBody) : Option ℕ :=
  body.firstSigned?.bind fun d => if d.accountId = accountId then d.nonce else none

/-- The nonces of the first signatures of an account, in the order of the journal. -/
def firstNonces (es : List Timed) (accountId : Text) : List ℕ :=
  es.filterMap (·.event.body.firstNonce? accountId)

/-- Every number is the one after the number before it. -/
def Consecutive (ns : List ℕ) : Prop := ns.IsChain fun m n => n = m + 1

theorem Consecutive.le_last {ns : List ℕ} (h : Consecutive ns) {n last : ℕ} (hn : n ∈ ns)
    (hl : ns.getLast? = some last) : n ≤ last := by
  have hlt : ns.IsChain (· < ·) := h.imp fun m n hmn => by omega
  have hsorted := List.isChain_iff_pairwise.mp hlt
  obtain ⟨init, rfl⟩ := List.getLast?_eq_some_iff.mp hl
  rcases List.mem_append.mp hn with hn | hn
  · exact ((List.pairwise_append.mp hsorted).2.2 n hn last List.mem_cons_self).le
  · exact (List.mem_singleton.mp hn).le

theorem Consecutive.append {ns : List ℕ} (h : Consecutive ns) {n : ℕ}
    (hn : ∀ last, ns.getLast? = some last → n = last + 1) : Consecutive (ns ++ [n]) := by
  refine List.isChain_append.mpr ⟨h, List.isChain_singleton n, ?_⟩
  rintro last hlast m hm
  obtain rfl := Option.some.inj hm
  exact hn last hlast

/-- The nonces of the accounts after a signature. -/
def Signed.noncesAfter (d : Signed) (nonces : OrderedMap Text ℕ) : OrderedMap Text ℕ :=
  match d.nonce with
  | some nonce => raiseNonce nonces d.accountId nonce
  | none => nonces

theorem get_raiseNonce (m : OrderedMap Text ℕ) (a b : Text) (n : ℕ) :
    (raiseNonce m a n).get b =
      if b = a then some ((m.get a).elim n fun last => max last n) else m.get b := by
  unfold raiseNonce
  cases hm : m.get a with
  | none =>
    rw [OrderedMap.get_set]
    rfl
  | some last =>
    by_cases hlt : last < n
    · simp only [if_pos hlt, OrderedMap.get_set, Option.elim_some, max_eq_right hlt.le]
    · simp only [if_neg hlt, Option.elim_some, max_eq_left (Nat.le_of_not_lt hlt)]
      by_cases hb : b = a
      · rw [if_pos hb, hb, hm]
      · rw [if_neg hb]

theorem firstNonces_append (es : List Timed) (e : Timed) (a : Text) :
    firstNonces (es ++ [e]) a = firstNonces es a ++ (e.event.body.firstNonce? a).toList := by
  unfold firstNonces
  rw [List.filterMap_append]
  cases h : e.event.body.firstNonce? a with
  | none => simp [h]
  | some n => simp [h]

/-! ## What a signature may spend -/

/-- What a first signature spends is nobody else's. -/
structure FreshSpend (s : SignerState) (d : Signed) : Prop where
  nodup : d.outpoints.Nodup
  chain : d.OfChain
  coins : ∀ o ∈ d.outpoints, ∀ id, s.reserved.get o = some id → id = d.intentId
  nonce : ∀ n, d.nonce = some n → ∀ last, s.nonces.get d.accountId = some last → n = last + 1

theorem SignedFor.freshSpend {s : SignerState} {d : Signed} {r : IntentRecord} {i : Payout}
    (hfor : SignedFor s d r i) (hid : r.intentId = d.intentId)
    (h : SpendAdmitted s r i none d.spent) : FreshSpend s d := by
  have hnet := hfor.same.1
  have hacc := hfor.account
  generalize hsp : d.spent = spent at h
  cases h with
  | coins hchain hnodup hreserved =>
    refine ⟨?_, ?_, ?_, ?_⟩ <;> simp only [Signed.outpoints, Signed.OfChain, Signed.nonce, hsp]
    · exact hnodup
    · rw [hnet, hchain]
    · rw [← hid]
      exact hreserved
    · intro _ h
      cases h
  | nonce hchain hnext =>
    refine ⟨?_, ?_, ?_, ?_⟩ <;> simp only [Signed.outpoints, Signed.OfChain, Signed.nonce, hsp]
    · exact .nil
    · rw [hnet, hchain]
    · intro _ h
      cases h
    · rintro n ⟨⟩ last hlast
      rw [hacc] at hlast
      exact hnext last hlast

theorem SignedFor.spendsLike {s : SignerState} {d : Signed} {r : IntentRecord} {i : Payout}
    (hfor : SignedFor s d r i) {first last : Signature}
    (hfirst : first.signed.network = i.network) (hof : first.signed.OfChain)
    (h : SpendAdmitted s r i (some (first, last)) d.spent) :
    SpendsLike first.signed d ∧ d.OfChain := by
  have hnet := hfor.same.1
  unfold Signed.OfChain at hof
  generalize hsp : d.spent = spent at h
  cases h with
  | sameCoins hchain hnodup hsame =>
    refine ⟨⟨?_, ?_, ?_⟩, ?_⟩ <;> simp only [Signed.outpoints, Signed.OfChain, Signed.nonce, hsp]
    · exact hnodup
    · exact mem_iff_of_sameInputs hnodup hsame
    · cases hf : first.signed.spent with
      | bitcoin => rfl
      | ethereum =>
        simp only [hf, hfirst, hchain] at hof
        cases hof
    · rw [hnet, hchain]
  | sameNonce hchain hnonce =>
    unfold Signed.nonce at hnonce
    cases hf : first.signed.spent with
    | bitcoin =>
      rw [hf] at hnonce
      cases hnonce
    | ethereum =>
      rw [hf] at hnonce
      obtain rfl := Option.some.inj hnonce
      refine ⟨⟨?_, ?_, ?_⟩, ?_⟩ <;>
        simp only [Signed.outpoints, Signed.OfChain, Signed.nonce, hsp, hf]
      · exact .nil
      · exact fun _ => trivial
      · rw [hnet, hchain]

/-! ## The invariant -/

/-- The signatures of an intent are of one payment, on its account and its network. -/
structure GoodPayment (r : IntentRecord) : Prop where
  one : OnePayment r.signatures
  ofIntent : ∀ x ∈ r.signatures, ∃ i, payoutOf r.intent = some i ∧
    x.signed.accountId = i.accountId ∧ x.signed.network = i.network

/-- What is signed is reserved for its intent, and the nonces of each account have no gap. -/
structure Spending (s : SignerState) (es : List Timed) : Prop where
  good : ∀ k r, s.intents.get k = some r → GoodPayment r
  reserved : ∀ k r, s.intents.get k = some r → ∀ x ∈ r.signatures, ∀ o ∈ x.signed.outpoints,
    s.reserved.get o = some k
  known : ∀ k r, s.intents.get k = some r → ∀ x ∈ r.signatures, ∀ n, x.signed.nonce = some n →
    n ∈ firstNonces es x.signed.accountId
  nonces : ∀ a, s.nonces.get a = (firstNonces es a).getLast?
  consecutive : ∀ a, Consecutive (firstNonces es a)

/-- An event that is no signature leaves the signatures of an intent, or opens it without any. -/
theorem IntentChange.signatures {A : AddressLib} {s : SignerState} {e : SignerEvent} {k : Text}
    {r : IntentRecord} (h : IntentChange A s e k r) (hne : e.body.signed? = none) :
    r.signatures = [] ∨
      ∃ r0, s.intents.get k = some r0 ∧ r.signatures = r0.signatures ∧ r.intent = r0.intent := by
  cases h with
  | kept _ hr => exact .inr ⟨r, hr, rfl, rfl⟩
  | created _ _ =>
    left
    rw [(opened_same _ _ _).signatures]
    rfl
  | @approved r0 credId person counter _ hr =>
    right
    have hsame := settle_same (s.counted credId counter) (r0.approvedBy credId person e.time) e.time
    exact ⟨r0, hr, hsame.signatures, hsame.intent⟩
  | @cancelled r0 _ _ hr => exact .inr ⟨r0, hr, rfl, rfl⟩
  | @vetoed r0 _ hr => exact .inr ⟨r0, hr, rfl, rfl⟩
  | signed hb _ _ =>
    rw [hb] at hne
    cases hne

theorem spent_of_apply {A : AddressLib} {s s' : SignerState} {e : SignerEvent}
    (h : apply A s e = .ok s') (hne : e.body.signed? = none) :
    s'.reserved = s.reserved ∧ s'.nonces = s.nonces := by
  obtain ⟨n, t, body⟩ := e
  cases body with
  | signed => cases hne
  | intent =>
    obtain ⟨i, -, hs⟩ := bind_eq_ok.mp h
    obtain rfl := Except.ok.inj hs
    exact ⟨rfl, rfl⟩
  | mandate =>
    simp only [apply] at h
    split at h <;> obtain rfl := Except.ok.inj h <;> exact ⟨rfl, rfl⟩
  | _ =>
    obtain rfl := Except.ok.inj h
    exact ⟨rfl, rfl⟩

theorem Spending.kept {A : AddressLib} {s s' : SignerState} {es : List Timed} (h : Spending s es)
    {e : Timed} (happly : apply A s e.event = .ok s') (hne : e.event.body.signed? = none) :
    Spending s' (es ++ [e]) := by
  obtain ⟨hreserved, hnonces⟩ := spent_of_apply happly hne
  have hfirst : ∀ a, firstNonces (es ++ [e]) a = firstNonces es a := by
    intro a
    have hnone : e.event.body.firstNonce? a = none := by
      rw [EventBody.firstNonce?, EventBody.firstSigned?, hne]
      rfl
    rw [firstNonces_append, hnone, Option.toList_none, List.append_nil]
  refine ⟨?_, ?_, ?_, ?_, ?_⟩
  · intro k r hr
    rcases (intents_of_apply happly hr).signatures hne with hnil | ⟨r0, hr0, hsigs, hintent⟩
    · exact ⟨hnil ▸ onePayment_nil, by rw [hnil]; nofun⟩
    · obtain ⟨hone, hof⟩ := h.good k r0 hr0
      rw [← hsigs] at hone hof
      rw [← hintent] at hof
      exact ⟨hone, hof⟩
  · intro k r hr x hx o ho
    rw [hreserved]
    rcases (intents_of_apply happly hr).signatures hne with hnil | ⟨r0, hr0, hsigs, -⟩
    · rw [hnil] at hx
      cases hx
    · rw [hsigs] at hx
      exact h.reserved k r0 hr0 x hx o ho
  · intro k r hr x hx n hn
    rw [hfirst]
    rcases (intents_of_apply happly hr).signatures hne with hnil | ⟨r0, hr0, hsigs, -⟩
    · rw [hnil] at hx
      cases hx
    · rw [hsigs] at hx
      exact h.known k r0 hr0 x hx n hn
  · intro a
    rw [hfirst, hnonces]
    exact h.nonces a
  · intro a
    rw [hfirst]
    exact h.consecutive a

/-- A first signature takes the next nonce of its account, a later one takes one of before. -/
structure NoncesStep (s : SignerState) (es : List Timed) (d : Signed) (e : Timed) : Prop where
  nonces : ∀ a, (d.noncesAfter s.nonces).get a = (firstNonces (es ++ [e]) a).getLast?
  consecutive : ∀ a, Consecutive (firstNonces (es ++ [e]) a)
  known : ∀ n, d.nonce = some n → n ∈ firstNonces (es ++ [e]) d.accountId

theorem Spending.firstNonce {s : SignerState} {es : List Timed} (h : Spending s es) {d : Signed}
    {e : Timed} (hbody : e.event.body = .signed d) (hmode : d.mode = .first)
    (hfresh : FreshSpend s d) : NoncesStep s es d e := by
  have hfirst : ∀ a, e.event.body.firstNonce? a = if d.accountId = a then d.nonce else none := by
    intro a
    rw [hbody, EventBody.firstNonce?, EventBody.firstSigned?, EventBody.signed?,
      Option.filter_some, hmode]
    rfl
  have hnext : ∀ n, d.nonce = some n → ∀ last, (firstNonces es d.accountId).getLast? = some last →
      n = last + 1 := by
    intro n hn last hlast
    rw [← h.nonces] at hlast
    exact hfresh.nonce n hn last hlast
  refine ⟨?_, ?_, ?_⟩
  · intro a
    rw [firstNonces_append, hfirst, Signed.noncesAfter]
    cases hn : d.nonce with
    | none => simp [h.nonces]
    | some n =>
      simp only [get_raiseNonce]
      by_cases ha : d.accountId = a
      · subst ha
        simp only [if_true, Option.toList_some, List.getLast?_concat]
        rw [h.nonces]
        cases hl : (firstNonces es d.accountId).getLast? with
        | none => rfl
        | some last =>
          have hsucc := hnext n hn last hl
          rw [Option.elim_some, max_eq_right (by omega)]
      · rw [if_neg ha, if_neg (Ne.symm ha), Option.toList_none, List.append_nil, h.nonces]
  · intro a
    rw [firstNonces_append, hfirst]
    by_cases ha : d.accountId = a
    · subst ha
      rw [if_pos rfl]
      cases hn : d.nonce with
      | none =>
        rw [Option.toList_none, List.append_nil]
        exact h.consecutive _
      | some n => exact (h.consecutive _).append (hnext n hn)
    · rw [if_neg ha, Option.toList_none, List.append_nil]
      exact h.consecutive a
  · intro n hn
    rw [firstNonces_append, hfirst, if_pos rfl, hn]
    exact List.mem_append_right _ List.mem_cons_self

theorem Spending.laterNonce {s : SignerState} {es : List Timed} (h : Spending s es) {d : Signed}
    {e : Timed} (hbody : e.event.body = .signed d) (hmode : d.mode.isFirst = false)
    (hknown : ∀ n, d.nonce = some n → n ∈ firstNonces es d.accountId) : NoncesStep s es d e := by
  have hsame : ∀ a, firstNonces (es ++ [e]) a = firstNonces es a := by
    intro a
    have hnone : e.event.body.firstNonce? a = none := by
      rw [hbody, EventBody.firstNonce?, EventBody.firstSigned?, EventBody.signed?,
        Option.filter_some, hmode]
      rfl
    rw [firstNonces_append, hnone, Option.toList_none, List.append_nil]
  refine ⟨?_, ?_, ?_⟩
  · intro a
    rw [hsame, ← h.nonces, Signed.noncesAfter]
    cases hn : d.nonce with
    | none => rfl
    | some n =>
      -- the highest nonce of the account stays the highest
      simp only [get_raiseNonce]
      by_cases ha : a = d.accountId
      · subst ha
        rw [if_pos rfl]
        cases hl : (firstNonces es d.accountId).getLast? with
        | none =>
          have hmem := hknown n hn
          rw [List.getLast?_eq_none_iff.mp hl] at hmem
          cases hmem
        | some last =>
          have hle := (h.consecutive d.accountId).le_last (hknown n hn) hl
          rw [h.nonces, hl, Option.elim_some, max_eq_left hle]
      · rw [if_neg ha]
  · intro a
    rw [hsame]
    exact h.consecutive a
  · intro n hn
    rw [hsame]
    exact hknown n hn

/-- A signature is one more of its intent, and leaves the others. -/
theorem IntentChange.ofSigned {A : AddressLib} {s : SignerState} {e : SignerEvent} {k : Text}
    {r : IntentRecord} (h : IntentChange A s e k r) {d : Signed} (hbody : e.body = .signed d) :
    (k ≠ d.intentId ∧ s.intents.get k = some r) ∨
    (k = d.intentId ∧ ∃ r0, s.intents.get k = some r0 ∧ r = r0.signedBy e.seq e.time d) := by
  cases h with
  | kept hne hr =>
    left
    refine ⟨?_, hr⟩
    rintro rfl
    apply hne
    rw [hbody]
    rfl
  | @signed r0 d' hb hk hr =>
    right
    rw [hbody] at hb
    obtain rfl := EventBody.signed.inj hb
    exact ⟨hk.symm, r0, hr, rfl⟩
  | created hb _ | approved hb _ | cancelled hb _ | vetoed hb _ =>
    rw [hbody] at hb
    cases hb

theorem Spending.signed {s : SignerState} {es : List Timed} (h : Spending s es) {d : Signed}
    {r : IntentRecord} (hget : s.intents.get d.intentId = some r) {e : Timed}
    (hpayment : GoodPayment (r.signedBy e.event.seq e.event.time d))
    (hcoins : ∀ o ∈ d.outpoints, ∀ id, s.reserved.get o = some id → id = d.intentId)
    (hnonces : NoncesStep s es d e) {A : AddressLib} {s' : SignerState}
    (hbody : e.event.body = .signed d) (happly : apply A s e.event = .ok s') :
    Spending s' (es ++ [e]) := by
  have hchange := fun k r hr => (intents_of_apply happly (k := k) (r := r) hr).ofSigned hbody
  have hreserved : s'.reserved = reserve s.reserved d.outpoints d.intentId := by
    unfold apply at happly
    rw [hbody] at happly
    rw [← Except.ok.inj happly]
  have hafter : s'.nonces = d.noncesAfter s.nonces := by
    unfold apply at happly
    rw [hbody] at happly
    rw [← Except.ok.inj happly]
    rfl
  refine ⟨?_, ?_, ?_, fun a => by rw [hafter]; exact hnonces.nonces a, hnonces.consecutive⟩
  · intro k q hq
    rcases hchange k q hq with ⟨-, hq0⟩ | ⟨rfl, q0, hq0, rfl⟩
    · exact h.good k q hq0
    · rw [hget] at hq0
      obtain rfl := Option.some.inj hq0
      exact hpayment
  · intro k q hq x hx o ho
    rw [hreserved, get_reserve]
    rcases hchange k q hq with ⟨hk, hq0⟩ | ⟨rfl, q0, hq0, rfl⟩
    · -- a coin of another intent is none that was just signed
      have hold := h.reserved k q hq0 x hx o ho
      rw [if_neg fun hmem => hk (hcoins o hmem k hold)]
      exact hold
    · by_cases hmem : o ∈ d.outpoints
      · rw [if_pos hmem]
      · rw [if_neg hmem]
        rcases List.mem_append.mp hx with hx | hx
        · exact h.reserved _ q0 hq0 x hx o ho
        · rw [List.mem_singleton.mp hx] at ho
          exact absurd ho hmem
  · intro k q hq x hx n hn
    have hold : ∀ a m, m ∈ firstNonces es a → m ∈ firstNonces (es ++ [e]) a := by
      intro a m hm
      rw [firstNonces_append]
      exact List.mem_append_left _ hm
    rcases hchange k q hq with ⟨-, hq0⟩ | ⟨rfl, q0, hq0, rfl⟩
    · exact hold _ _ (h.known k q hq0 x hx n hn)
    · rcases List.mem_append.mp hx with hx | hx
      · exact hold _ _ (h.known _ q0 hq0 x hx n hn)
      · rw [List.mem_singleton.mp hx] at hn ⊢
        exact hnonces.known n hn

/-- One admitted event keeps the invariant. -/
theorem Spending.step {P : Platform} {s s' : SignerState} {es : List Timed} (hids : IdsMatch s)
    (h : Spending s es) {now : ℤ} {e : SignerEvent} (hadm : Admitted P s now e.body)
    (happly : apply P.addresses s e = .ok s') : Spending s' (es ++ [⟨now, e⟩]) := by
  cases hsigned : e.body.signed? with
  | none => exact h.kept (e := ⟨now, e⟩) happly hsigned
  | some d =>
    have hbody : e.body = .signed d := by
      cases hb : e.body with
      | signed d' =>
        rw [hb] at hsigned
        rw [Option.some.inj hsigned]
      | _ =>
        rw [hb] at hsigned
        cases hsigned
    rw [hbody] at hadm
    cases hadm with
    | @first _ r i _ hfor _ hnone hmode _ hspent =>
      have hid := hids.intents _ _ hfor.record
      have hfresh := hfor.freshSpend hid hspent
      refine h.signed hfor.record ⟨?_, ?_⟩ hfresh.coins (h.firstNonce hbody hmode hfresh) hbody
        happly
      · rw [IntentRecord.signedBy, hnone]
        exact onePayment_first hmode hfresh.nodup hfresh.chain
      · intro x hx
        rw [IntentRecord.signedBy, hnone] at hx
        rw [List.mem_singleton.mp hx]
        exact ⟨i, hfor.payout, hfor.account, hfor.same.1⟩
    | @again _ r i first last hfor hmode hfirst _ hspent =>
      obtain ⟨hone, hof⟩ := h.good _ _ hfor.record
      have hhead := hone.head_of_first hfirst
      have hmem : first ∈ r.signatures := List.mem_of_mem_head? hhead
      obtain ⟨i', hi', hacc, hnet⟩ := hof first hmem
      rw [hfor.payout] at hi'
      obtain rfl := Option.some.inj hi'
      obtain ⟨hlike, hchain⟩ := hfor.spendsLike hnet (hone.chain first hmem) hspent
      refine h.signed hfor.record ⟨hone.append hhead hmode hlike hchain, ?_⟩ ?_
        (h.laterNonce hbody hmode ?_) hbody happly
      · intro x hx
        rcases List.mem_append.mp hx with hx | hx
        · exact hof x hx
        · rw [List.mem_singleton.mp hx]
          exact ⟨i, hfor.payout, hfor.account, hfor.same.1⟩
      · intro o ho id hid
        have hold := h.reserved _ _ hfor.record first hmem o ((hlike.coins o).mp ho)
        rw [hold] at hid
        exact (Option.some.inj hid).symm
      · intro n hn
        rw [hlike.nonce] at hn
        rw [hfor.account, ← hacc]
        exact h.known _ _ hfor.record first hmem n hn

theorem History.spending {P : Platform} {s : SignerState} {es : List Timed} (h : History P s es) :
    Spending s es := by
  apply History.induct _ _ h
  · have hnone : ∀ k r, emptyState.intents.get k ≠ some r := by
      intro k r hr
      cases hr
    exact ⟨fun k r hr => absurd hr (hnone k r), fun k r hr => absurd hr (hnone k r),
      fun k r hr => absurd hr (hnone k r), fun _ => rfl, fun _ => .nil⟩
  · intro s s' es now e hist ih hadm happly
    exact ih.step hist.ids hadm happly

/-! ## The journal of an intent -/

def Timed.signatureOf? (intentId : Text) (e : Timed) : Option Signature :=
  (e.event.body.signed?.filter (·.intentId = intentId)).map fun d =>
    ⟨e.event.seq, e.event.time, d⟩

/-- The signatures of an intent, in the order of the journal. -/
def signaturesOf (es : List Timed) (intentId : Text) : List Signature :=
  es.filterMap (·.signatureOf? intentId)

/-- The signatures that the state has of an intent. -/
def SignerState.signaturesOf (s : SignerState) (intentId : Text) : List Signature :=
  ((s.intents.get intentId).map (·.signatures)).getD []

theorem signaturesOf_append (es : List Timed) (e : Timed) (k : Text) :
    signaturesOf (es ++ [e]) k = signaturesOf es k ++ (e.signatureOf? k).toList := by
  unfold signaturesOf
  rw [List.filterMap_append]
  cases h : e.signatureOf? k with
  | none => simp [h]
  | some x => simp [h]

/-- An intent that an event neither opens nor signs keeps its signatures. -/
theorem signaturesOf_kept {A : AddressLib} {s s' : SignerState} {e : SignerEvent}
    (happly : apply A s e = .ok s') {k : Text} (hopens : e.body.opens? ≠ some k)
    (hsigned : ∀ d, e.body = .signed d → d.intentId ≠ k) :
    s'.signaturesOf k = s.signaturesOf k := by
  unfold SignerState.signaturesOf
  cases hk : s'.intents.get k with
  | none =>
    have hnone : s.intents.get k = none := by
      rw [← Option.not_isSome_iff_eq_none]
      intro hsome
      have := intent_stays happly hsome
      rw [hk] at this
      cases this
    rw [hnone]
  | some r =>
    cases intents_of_apply happly hk with
    | kept _ hr => rw [hr]
    | created hb _ =>
      rw [hb] at hopens
      exact absurd rfl hopens
    | @approved r0 credId person counter _ hr =>
      rw [hr]
      exact (settle_same (s.counted credId counter)
        (r0.approvedBy credId person e.time) e.time).signatures
    | cancelled _ hr | vetoed _ hr =>
      rw [hr]
      rfl
    | signed hb hid _ => exact absurd hid (hsigned _ hb)

/-- The state has all signatures of the journal, where every intent has its own id. -/
structure AllSignatures (s : SignerState) (es : List Timed) : Prop where
  opened : ∀ k, (s.intents.get k).isSome → k ∈ openedIds es
  signatures : ∀ k, s.signaturesOf k = signaturesOf es k

theorem openedIds_concat (es : List Timed) (e : Timed) :
    openedIds (es ++ [e]) = openedIds es ++ e.event.body.opens?.toList := by
  rw [openedIds_append]
  cases h : e.event.body.opens? with
  | none => simp [openedIds, h]
  | some id => simp [openedIds, h]

theorem AllSignatures.step {P : Platform} {s s' : SignerState} {es : List Timed}
    (h : AllSignatures s es) {now : ℤ} {e : SignerEvent} (hadm : Admitted P s now e.body)
    (happly : apply P.addresses s e = .ok s') (hfresh : (openedIds (es ++ [⟨now, e⟩])).Nodup) :
    AllSignatures s' (es ++ [⟨now, e⟩]) := by
  rw [openedIds_concat] at hfresh
  constructor
  · intro k hk
    rw [openedIds_concat]
    obtain ⟨r, hr⟩ := Option.isSome_iff_exists.mp hk
    by_cases hopens : e.body.opens? = some k
    · rw [hopens]
      exact List.mem_append_right _ List.mem_cons_self
    · apply List.mem_append_left
      apply h.opened
      cases intents_of_apply happly hr with
      | created hb _ =>
        rw [hb] at hopens
        exact absurd rfl hopens
      | kept _ hold | approved _ hold | cancelled _ hold | vetoed _ hold | signed _ _ hold =>
        rw [hold]
        rfl
  · intro k
    rw [signaturesOf_append, ← h.signatures]
    by_cases hopens : e.body.opens? = some k
    · -- a new id has no signatures, before and after
      have hnew : s.intents.get k = none := by
        rw [← Option.not_isSome_iff_eq_none]
        intro hsome
        rw [hopens] at hfresh
        exact (List.disjoint_of_nodup_append hfresh) (h.opened k hsome) List.mem_cons_self
      cases hb : e.body with
      | intent intentId text mandateId =>
        rw [hb] at hopens
        obtain rfl := Option.some.inj hopens
        have hnone : (Timed.mk now e).signatureOf? intentId = none := by
          rw [Timed.signatureOf?, hb]
          rfl
        rw [hnone, Option.toList_none, List.append_nil, SignerState.signaturesOf,
          SignerState.signaturesOf, hnew]
        cases hk : s'.intents.get intentId with
        | none => rfl
        | some r =>
          cases intents_of_apply happly hk with
          | created _ _ => exact (opened_same _ _ _).signatures
          | kept _ hr | approved _ hr | cancelled _ hr | vetoed _ hr | signed _ _ hr =>
            rw [hnew] at hr
            cases hr
      | _ =>
        rw [hb] at hopens
        cases hopens
    · by_cases hsigned : ∃ d, e.body = .signed d ∧ d.intentId = k
      · obtain ⟨d, hb, rfl⟩ := hsigned
        have hsome : (Timed.mk now e).signatureOf? d.intentId = some ⟨e.seq, e.time, d⟩ := by
          rw [Timed.signatureOf?, hb, EventBody.signed?, Option.filter_some,
            if_pos (decide_eq_true rfl)]
          rfl
        rw [hsome, Option.toList_some]
        have hrecord : ∃ r, s.intents.get d.intentId = some r := by
          rw [hb] at hadm
          cases hadm with
          | first hfor | again hfor => exact ⟨_, hfor.record⟩
        obtain ⟨r, hr⟩ := hrecord
        obtain ⟨r', hr'⟩ := Option.isSome_iff_exists.mp
          (intent_stays happly (k := d.intentId) (by rw [hr]; rfl))
        rcases (intents_of_apply happly hr').ofSigned hb with ⟨hne, -⟩ | ⟨-, r0, hr0, rfl⟩
        · exact absurd rfl hne
        · rw [SignerState.signaturesOf, SignerState.signaturesOf, hr', hr0]
          rfl
      · have hnone : (Timed.mk now e).signatureOf? k = none := by
          rw [Timed.signatureOf?]
          cases hb : e.body with
          | signed d =>
            have hne : ¬ d.intentId = k := fun hk => hsigned ⟨d, hb, hk⟩
            rw [EventBody.signed?, Option.filter_some, if_neg (by simpa using hne)]
            rfl
          | _ => rfl
        rw [hnone, Option.toList_none, List.append_nil]
        exact signaturesOf_kept happly hopens fun d hb hk => hsigned ⟨d, hb, hk⟩

theorem History.allSignatures {P : Platform} {s : SignerState} {es : List Timed}
    (h : History P s es) (hfresh : (openedIds es).Nodup) : AllSignatures s es := by
  revert hfresh
  apply History.induct _ _ h
  · intro _
    refine ⟨?_, fun _ => rfl⟩
    intro k hk
    cases hk
  · intro s s' es now e hist ih hadm happly hfresh
    have hbefore : (openedIds es).Nodup := by
      rw [openedIds_append] at hfresh
      exact hfresh.of_append_left
    exact (ih hbefore).step hadm happly hfresh

/-! ## In every run -/

/-- **In every run** the signatures of an intent are of one payment, two intents
have no coin in common, and the first signatures of an account use one nonce
after the other. Where no id is drawn twice, the journal has no other signatures. -/
theorem one_payment_for_each_intent {P : Platform} (hA : AddressShapes P.addresses)
    {as : List Action} {g : Signer} {es : List Timed} (h : Run P as g es) :
    (∀ k r, g.state.intents.get k = some r → OnePayment r.signatures) ∧
    (∀ j k q r, g.state.intents.get j = some q → g.state.intents.get k = some r → j ≠ k →
      ∀ x ∈ q.signatures, ∀ y ∈ r.signatures,
        x.signed.outpoints.Disjoint y.signed.outpoints) ∧
    (∀ accountId, Consecutive (firstNonces es accountId)) ∧
    ((drawnIds as).Nodup → ∀ k, g.state.signaturesOf k = signaturesOf es k) := by
  have hist := (h.reached hA).history
  have hspending := hist.spending
  refine ⟨fun k r hr => (hspending.good k r hr).one, ?_, hspending.consecutive, ?_⟩
  · intro j k q r hq hr hjk x hx y hy o hox hoy
    have hj := hspending.reserved j q hq x hx o hox
    have hk := hspending.reserved k r hr y hy o hoy
    rw [hj] at hk
    exact hjk (Option.some.inj hk)
  · intro hdrawn
    exact (hist.allSignatures (h.opened_once hA hdrawn)).signatures

/-- In the sample no two intents have a coin in common, and the nonces of every
account follow each other. -/
theorem sample_payments :
    (∀ k r, sample.1.state.intents.get k = some r → OnePayment r.signatures) ∧
    (∀ accountId, Consecutive (firstNonces sample.2 accountId)) ∧
    ∀ k, sample.1.state.signaturesOf k = signaturesOf sample.2 k := by
  obtain ⟨hone, -, hnonces, hall⟩ := one_payment_for_each_intent sampleLib_shapes sample_run
  exact ⟨hone, hnonces, hall sample_draws⟩

end Klick
