-- What holds when an event is recorded. Every command is read once, for the
-- checks that stand before its event; what follows about runs rests on these
-- facts only.
import Klick.Protocol

open Js

namespace Klick

/-! ## Records and their keys -/

/-- Every record lies at its own id. -/
structure IdsMatch (s : SignerState) : Prop where
  intents : ∀ k r, s.intents.get k = some r → r.intentId = k
  mandates : ∀ k m, s.mandates.get k = some m → m.mandateId = k
  accounts : ∀ k a, s.accounts.get k = some a → a.accountId = k
  keys : ∀ k m, s.keys.get k = some m → m.credId = k
  enrolments : ∀ k en, s.enrolments.get k = some en → en.enrolId = k

section Keyed

variable {V : Type} {m : OrderedMap Text V} {id : V → Text}

theorem keyed_set (h : ∀ k v, m.get k = some v → id v = k) {k : Text} {v : V} (hv : id v = k) :
    ∀ j w, (m.set k v).get j = some w → id w = j := by
  intro j w hw
  rw [OrderedMap.get_set] at hw
  by_cases hj : j = k
  · rw [if_pos hj] at hw
    cases hw
    rw [hv, hj]
  · rw [if_neg hj] at hw
    exact h j w hw

theorem keyed_modify (h : ∀ k v, m.get k = some v → id v = k) {k : Text} {f : V → V}
    (hf : ∀ v, id (f v) = id v) : ∀ j w, (m.modify k f).get j = some w → id w = j := by
  intro j w hw
  rw [OrderedMap.get_modify] at hw
  by_cases hj : j = k
  · rw [if_pos hj] at hw
    obtain ⟨v, hv, rfl⟩ := Option.map_eq_some_iff.mp hw
    rw [hf, h k v hv, hj]
  · rw [if_neg hj] at hw
    exact h j w hw

end Keyed

theorem settle_intentId (s : SignerState) (r : IntentRecord) (t : ℤ) :
    (settle s r t).intentId = r.intentId := by
  unfold settle
  repeat' split
  all_goals rfl

theorem approve_mandateId (s : SignerState) (a : ApprovalRecord) (m : MandateRecord) :
    (m.approve s a).mandateId = m.mandateId := by
  unfold MandateRecord.approve
  simp only
  split <;> rfl

theorem idsMatch_empty : IdsMatch emptyState := by
  constructor <;> intro k v h <;> cases h

theorem IdsMatch.apply {A : AddressLib} {s s' : SignerState} {e : SignerEvent} (h : IdsMatch s)
    (ha : apply A s e = .ok s') : IdsMatch s' := by
  obtain ⟨h1, h2, h3, h4, h5⟩ := h
  obtain ⟨n, t, body⟩ := e
  cases body <;> simp only [Klick.apply, Except.ok.injEq] at ha
  case account => subst ha; exact ⟨h1, h2, keyed_set h3 rfl, h4, h5⟩
  case enrolStart => subst ha; exact ⟨h1, h2, h3, h4, keyed_set h5 rfl⟩
  case key =>
    subst ha
    exact ⟨h1, h2, h3, keyed_set h4 rfl, keyed_modify h5 fun _ => rfl⟩
  case keyRevoked => subst ha; exact ⟨h1, h2, h3, keyed_modify h4 fun _ => rfl, h5⟩
  case intent =>
    obtain ⟨i, -, ha⟩ := bind_eq_ok.mp ha
    obtain rfl := Except.ok.inj ha
    refine ⟨keyed_set h1 ?_, h2, h3, h4, h5⟩
    split
    · exact settle_intentId _ _ _
    · rfl
  case approval =>
    subst ha
    exact ⟨keyed_modify h1 fun _ => settle_intentId _ _ _, h2, h3, keyed_modify h4 fun _ => rfl, h5⟩
  case cancel => subst ha; exact ⟨keyed_modify h1 fun _ => rfl, h2, h3, h4, h5⟩
  case veto => subst ha; exact ⟨keyed_modify h1 fun _ => rfl, h2, h3, h4, h5⟩
  case signed => subst ha; exact ⟨keyed_modify h1 fun _ => rfl, h2, h3, h4, h5⟩
  case mandate =>
    split at ha
    · obtain rfl := Except.ok.inj ha
      exact ⟨h1, h2, h3, h4, h5⟩
    · obtain rfl := Except.ok.inj ha
      exact ⟨h1, keyed_set h2 rfl, h3, h4, h5⟩
  case mandateApproval =>
    subst ha
    exact ⟨h1, keyed_modify h2 fun _ => approve_mandateId _ _ _, h3, keyed_modify h4 fun _ => rfl,
      h5⟩
  case mandateRevoked => subst ha; exact ⟨h1, keyed_modify h2 fun _ => rfl, h3, h4, h5⟩
  all_goals
    subst ha
    exact ⟨h1, h2, h3, h4, h5⟩

/-! ## The facts behind an event -/

/-- An assertion by a key about a canonical text, with the counter that it gives. -/
def Asserted (P : Platform) (init : InitRecord) (key : KeyRecord) (text : Text) (counter : ℕ) :
    Prop :=
  ∃ input, verifyAssertion P.crypto input
    ⟨init.rpId, init.origin, challengeOf P text, key.spki, key.counter⟩ = .ok counter

/-- A mandate that is there, not revoked, and not over. -/
def MandateValid (s : SignerState) (now : ℤ) (id : Text) : Prop :=
  ∃ m, s.mandates.get id = some m ∧ m.revoked = false ∧ now < m.mandate.validUntil

/-- What holds of a payout before its first signature. -/
structure FirstGuards (s : SignerState) (policy : Policy) (r : IntentRecord) (i : Payout)
    (now : ℤ) : Prop where
  mandate : ∀ id, r.namedMandate = some id → MandateValid s now id
  quorum : quorum s r = true
  signable : ∃ t, r.signableAt = some t ∧ t ≤ now
  until_ : now ≤ r.signUntil.getD 0
  destination : ∃ w, activeDestination s i.network i.destination now = some w
  network : policy.includesNetwork i.network = true ∧ i.network.live = false
  spend : spendAllowed policy i.asset i.amount (signedLast24h s i.asset now) = .ok .ok

/-- What a signature may spend: fresh coins or the next nonce at first, the
same coins or the same nonce again later. -/
inductive SpendAdmitted (s : SignerState) (r : IntentRecord) (i : Payout) :
    Replaced → Spent → Prop
  | coins {outpoints changeIndex} : i.network.chain = .bitcoin → outpoints.Nodup →
      (∀ o ∈ outpoints, ∀ id, s.reserved.get o = some id → id = r.intentId) →
      SpendAdmitted s r i none (.bitcoin outpoints changeIndex)
  | sameCoins {first last outpoints changeIndex} : i.network.chain = .bitcoin →
      outpoints.Nodup → sameInputs first.signed outpoints = true →
      SpendAdmitted s r i (some (first, last)) (.bitcoin outpoints changeIndex)
  | nonce {nonce maxFee maxPriority gasLimit} : i.network.chain = .ethereum →
      (∀ highest, s.nonces.get i.accountId = some highest → nonce = highest + 1) →
      SpendAdmitted s r i none (.ethereum nonce maxFee maxPriority gasLimit)
  | sameNonce {first last nonce maxFee maxPriority gasLimit} : i.network.chain = .ethereum →
      first.signed.nonce = some nonce →
      SpendAdmitted s r i (some (first, last)) (.ethereum nonce maxFee maxPriority gasLimit)

/-- A signature is of a payout that is not closed, and says what its intent says. -/
structure SignedFor (s : SignerState) (d : Signed) (r : IntentRecord) (i : Payout) : Prop where
  notFrozen : s.frozen = none
  record : s.intents.get d.intentId = some r
  payout : payoutOf r.intent = some i
  open_ : r.cancelled = false ∧ r.vetoed = false
  account : d.accountId = i.accountId
  same : d.network = i.network ∧ d.asset = i.asset ∧ d.amount = i.amount

/-- A new intent, which reads back. -/
structure IntentFacts (P : Platform) (s : SignerState) (now : ℤ) (intentId text : Text)
    (mandateId : Option Text) (i : Intent) : Prop where
  notFrozen : s.frozen = none
  encoded : encodeIntent P.addresses i = .ok text
  fits : i.Fits
  id : i.intentId = intentId
  payout : i.kind = .payout → ∃ p, payoutOf i = some p ∧
    (∃ a, s.accounts.get p.accountId = some a ∧ a.network = p.network) ∧
    (∃ w, activeDestination s p.network p.destination now = some w) ∧
    ∀ id, mandateId = some id → ∃ m, s.mandates.get id = some m ∧ mandateQuorum s m = true ∧
      mandateCovers m.mandate ⟨i.initiator, p.network, p.asset, p.amount, p.destination, now,
        mandateUsed s id now⟩ = .ok
  whitelist : i.kind = .whitelist → mandateId = none
  named : mandateId ≠ some []

/-- The events that are recorded in a state, at a reading of the clock. -/
inductive Admitted (P : Platform) (s : SignerState) (now : ℤ) : EventBody → Prop
  | init {orgId rpId origin dev fingerprints policy} : s.init = none →
      Admitted P s now (.init orgId rpId origin dev fingerprints policy)
  | networkAdded {network fingerprint} : s.init.isSome →
      Admitted P s now (.networkAdded network fingerprint)
  | account {accountId network xpub} : s.accounts.get accountId = none →
      Admitted P s now (.account accountId network ((s.nextIndex network).getD 0) xpub)
  | enrolStart {enrolId person secret expiresAt} :
      Admitted P s now (.enrolStart enrolId person secret expiresAt)
  | key {enrolId credId spki aaguid counter en} : s.enrolments.get enrolId = some en →
      en.done = false → now ≤ en.expiresAt → s.keys.get credId = none →
      Admitted P s now (.key enrolId en.person credId spki aaguid counter)
  | keyRevoked {credId k} : s.keys.get credId = some k → k.active = true →
      Admitted P s now (.keyRevoked credId)
  | policy {next origin prev} : s.policy = some prev →
      (origin = .app → isTightening prev.raw next.raw = .ok true) →
      Admitted P s now (.policy next origin)
  | intent {intentId text mandateId i} : IntentFacts P s now intentId text mandateId i →
      Admitted P s now (.intent intentId text mandateId)
  | approval {r credId key counter init} : s.init = some init → s.frozen = none →
      s.intents.get r.intentId = some r → r.cancelled = false → r.vetoed = false →
      now ≤ r.intent.expiresAt → r.mandateId = none → s.keys.get credId = some key →
      key.active = true → (∀ x ∈ r.approvals, x.credId ≠ credId) →
      Asserted P init key r.text counter →
      Admitted P s now (.approval r.intentId credId key.person counter)
  | cancel {r origin} : s.intents.get r.intentId = some r → r.signatures = [] →
      Admitted P s now (.cancel r.intentId origin)
  | veto {r} : s.intents.get r.intentId = some r → r.intent.kind = .whitelist →
      Admitted P s now (.veto r.intentId)
  | freeze {reason origin} : s.frozen = none → Admitted P s now (.freeze reason origin)
  | unfreeze : s.frozen.isSome → Admitted P s now .unfreeze
  | first {d r i policy} : SignedFor s d r i → s.policy = some policy → r.signatures = [] →
      d.mode = .first → FirstGuards s policy r i now → SpendAdmitted s r i none d.spent →
      Admitted P s now (.signed d)
  | again {d r i first last} : SignedFor s d r i → d.mode.isFirst = false →
      r.first = some first → r.last = some last →
      SpendAdmitted s r i (some (first, last)) d.spent → Admitted P s now (.signed d)
  | rekey {fingerprints} : Admitted P s now (.rekey fingerprints)
  | mandate {m text} : parseMandate P.addresses text = .ok m →
      s.mandates.get m.mandateId = none → Admitted P s now (.mandate m.mandateId text)
  | mandateApproval {m credId key counter init} : s.init = some init → s.frozen = none →
      s.mandates.get m.mandateId = some m → m.revoked = false → s.keys.get credId = some key →
      key.active = true → key.person ≠ m.mandate.grantee →
      (∀ x ∈ m.approvals, x.credId ≠ credId) → Asserted P init key m.text counter →
      Admitted P s now (.mandateApproval m.mandateId credId key.person counter)
  | mandateRevoked {m origin} : s.mandates.get m.mandateId = some m →
      Admitted P s now (.mandateRevoked m.mandateId origin)

end Klick
