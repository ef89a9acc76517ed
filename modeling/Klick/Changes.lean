-- What an event changes: each record after it is the one before it, or came
-- from it in one way. The laws of the signer's runs are read off these changes.
import Klick.Runs

open Js

namespace Klick

/-! ## Intents -/

theorem payoutOf_eq_some {i : Intent} {p : Payout} (h : payoutOf i = some p) :
    i.kind = .payout ∧ i.accountId = some p.accountId ∧ i.asset = some p.asset ∧
      i.amount = some p.amount ∧ i.network = p.network ∧ i.destination = p.destination := by
  unfold payoutOf at h
  split at h
  · rename_i accountId asset amount hk ha hs hm
    split at h
    · cases h
    · obtain rfl := Option.some.inj h
      exact ⟨hk, ha, hs, hm, rfl, rfl⟩
  · cases h

/-- The intent that an event is about. -/
def EventBody.intentId? : EventBody → Option Text
  | .intent intentId .. => some intentId
  | .approval intentId .. => some intentId
  | .cancel intentId _ => some intentId
  | .veto intentId => some intentId
  | .signed d => some d.intentId
  | _ => none

/-- A new record; what a mandate has approved is settled at once. -/
def opened (s : SignerState) (r : IntentRecord) (time : ℤ) : IntentRecord :=
  if r.mandateId.any (· ≠ []) then settle s r time else r

/-- The state in which an approval settles, with the new counter of its key. -/
def SignerState.counted (s : SignerState) (credId : Text) (counter : ℕ) : SignerState :=
  { s with keys := setCounter s.keys credId counter }

/-- One more approval. -/
def IntentRecord.approvedBy (r : IntentRecord) (credId person : Text) (time : ℤ) : IntentRecord :=
  { r with approvals := r.approvals ++ [⟨credId, person, time⟩] }

/-- One more signature. -/
def IntentRecord.signedBy (r : IntentRecord) (seq : ℕ) (time : ℤ) (d : Signed) : IntentRecord :=
  { r with signatures := r.signatures ++ [⟨seq, time, d⟩] }

/-- Where the record of an intent comes from, after an event. -/
inductive IntentChange (A : AddressLib) (s : SignerState) (e : SignerEvent) (k : Text) :
    IntentRecord → Prop
  | kept {r} : e.body.intentId? ≠ some k → s.intents.get k = some r → IntentChange A s e k r
  | created {text mandateId i} : e.body = .intent k text mandateId → parseIntent A text = .ok i →
      IntentChange A s e k (opened s (newIntent k text i mandateId e.time) e.time)
  | approved {r credId person counter} : e.body = .approval k credId person counter →
      s.intents.get k = some r →
      IntentChange A s e k
        (settle (s.counted credId counter) (r.approvedBy credId person e.time) e.time)
  | cancelled {r origin} : e.body = .cancel k origin → s.intents.get k = some r →
      IntentChange A s e k { r with cancelled := true }
  | vetoed {r} : e.body = .veto k → s.intents.get k = some r →
      IntentChange A s e k { r with vetoed := true }
  | signed {r d} : e.body = .signed d → d.intentId = k → s.intents.get k = some r →
      IntentChange A s e k (r.signedBy e.seq e.time d)

theorem first_of_signatures {r r' : IntentRecord} (h : r'.signatures = r.signatures) :
    r'.first = r.first := by
  unfold IntentRecord.first
  rw [h]

/-- A further signature leaves the first one. -/
theorem first_signedBy {r : IntentRecord} {f : Signature} (h : r.first = some f) (seq : ℕ)
    (time : ℤ) (d : Signed) : (r.signedBy seq time d).first = r.first := by
  unfold IntentRecord.first IntentRecord.signedBy at *
  rw [List.find?_append, h]
  rfl

section Lookup

variable {V : Type} {m : OrderedMap Text V}

theorem get_set_cases {j k : Text} {v w : V} (h : (m.set k v).get j = some w) :
    (j = k ∧ w = v) ∨ (j ≠ k ∧ m.get j = some w) := by
  rw [OrderedMap.get_set] at h
  by_cases hj : j = k
  · rw [if_pos hj] at h
    exact .inl ⟨hj, (Option.some.inj h).symm⟩
  · rw [if_neg hj] at h
    exact .inr ⟨hj, h⟩

theorem get_modify_cases {j k : Text} {f : V → V} {w : V} (h : (m.modify k f).get j = some w) :
    (j = k ∧ ∃ v, m.get k = some v ∧ w = f v) ∨ (j ≠ k ∧ m.get j = some w) := by
  rw [OrderedMap.get_modify] at h
  by_cases hj : j = k
  · rw [if_pos hj] at h
    obtain ⟨v, hv, rfl⟩ := Option.map_eq_some_iff.mp h
    exact .inl ⟨hj, v, hv, rfl⟩
  · rw [if_neg hj] at h
    exact .inr ⟨hj, h⟩

end Lookup

theorem intents_of_apply {A : AddressLib} {s s' : SignerState} {e : SignerEvent}
    (h : apply A s e = .ok s') {k : Text} {r : IntentRecord} (hr : s'.intents.get k = some r) :
    IntentChange A s e k r := by
  obtain ⟨n, t, body⟩ := e
  cases body with
  | intent intentId text mandateId =>
    obtain ⟨i, hi, hs⟩ := bind_eq_ok.mp h
    obtain rfl := Except.ok.inj hs
    rcases get_set_cases hr with ⟨rfl, rfl⟩ | ⟨hk, hr⟩
    · exact .created rfl hi
    · exact .kept (fun hc => hk (Option.some.inj hc).symm) hr
  | approval intentId credId person counter =>
    obtain rfl := Except.ok.inj h
    rcases get_modify_cases hr with ⟨rfl, v, hv, rfl⟩ | ⟨hk, hr⟩
    · exact .approved rfl hv
    · exact .kept (fun hc => hk (Option.some.inj hc).symm) hr
  | cancel intentId origin =>
    obtain rfl := Except.ok.inj h
    rcases get_modify_cases hr with ⟨rfl, v, hv, rfl⟩ | ⟨hk, hr⟩
    · exact .cancelled rfl hv
    · exact .kept (fun hc => hk (Option.some.inj hc).symm) hr
  | veto intentId =>
    obtain rfl := Except.ok.inj h
    rcases get_modify_cases hr with ⟨rfl, v, hv, rfl⟩ | ⟨hk, hr⟩
    · exact .vetoed rfl hv
    · exact .kept (fun hc => hk (Option.some.inj hc).symm) hr
  | signed d =>
    obtain rfl := Except.ok.inj h
    rcases get_modify_cases hr with ⟨rfl, v, hv, rfl⟩ | ⟨hk, hr⟩
    · exact .signed rfl rfl hv
    · exact .kept (fun hc => hk (Option.some.inj hc).symm) hr
  | mandate mandateId text =>
    simp only [apply] at h
    split at h <;> obtain rfl := Except.ok.inj h <;> exact .kept (by intro hc; cases hc) hr
  | _ =>
    obtain rfl := Except.ok.inj h
    exact .kept (by intro hc; cases hc) hr

/-- The record of an intent that an event opens. -/
theorem opened_of_apply {A : AddressLib} {s s' : SignerState} {e : SignerEvent}
    (h : apply A s e = .ok s') {k text : Text} {mandateId : Option Text}
    (hbody : e.body = .intent k text mandateId) :
    ∃ i, parseIntent A text = .ok i ∧
      s'.intents.get k = some (opened s (newIntent k text i mandateId e.time) e.time) := by
  obtain ⟨n, t, body⟩ := e
  obtain rfl : body = _ := hbody
  obtain ⟨i, hi, hs⟩ := bind_eq_ok.mp h
  obtain rfl := Except.ok.inj hs
  exact ⟨i, hi, OrderedMap.get_set_self _ _ _⟩

/-- An intent that is there stays there. -/
theorem intent_stays {A : AddressLib} {s s' : SignerState} {e : SignerEvent}
    (h : apply A s e = .ok s') {k : Text} (hr : (s.intents.get k).isSome) :
    (s'.intents.get k).isSome := by
  have hmod : ∀ (k' : Text) (f : IntentRecord → IntentRecord),
      ((s.intents.modify k' f).get k).isSome := by
    intro k' f
    rw [OrderedMap.get_modify]
    split
    · rename_i hk
      rw [Option.isSome_map, ← hk]
      exact hr
    · exact hr
  obtain ⟨n, t, body⟩ := e
  cases body with
  | intent intentId text mandateId =>
    obtain ⟨i, hi, hs⟩ := bind_eq_ok.mp h
    obtain rfl := Except.ok.inj hs
    exact (s.intents.isSome_get_set _ _ _).mpr (.inr hr)
  | mandate mandateId text =>
    simp only [apply] at h
    split at h <;> obtain rfl := Except.ok.inj h <;> exact hr
  | approval => obtain rfl := Except.ok.inj h; exact hmod _ _
  | cancel => obtain rfl := Except.ok.inj h; exact hmod _ _
  | veto => obtain rfl := Except.ok.inj h; exact hmod _ _
  | signed => obtain rfl := Except.ok.inj h; exact hmod _ _
  | _ =>
    obtain rfl := Except.ok.inj h
    exact hr

/-- An event about one intent leaves the others as they are. -/
theorem intents_elsewhere {A : AddressLib} {s s' : SignerState} {e : SignerEvent}
    (h : apply A s e = .ok s') {k : Text} (hne : e.body.intentId? ≠ some k) :
    s'.intents.get k = s.intents.get k := by
  have hmod : ∀ (k' : Text) (f : IntentRecord → IntentRecord), some k' ≠ some k →
      (s.intents.modify k' f).get k = s.intents.get k := by
    intro k' f hk
    rw [OrderedMap.get_modify, if_neg fun hkk => hk (congrArg some hkk.symm)]
  obtain ⟨n, t, body⟩ := e
  cases body with
  | intent intentId text mandateId =>
    obtain ⟨i, hi, hs⟩ := bind_eq_ok.mp h
    obtain rfl := Except.ok.inj hs
    exact OrderedMap.get_set_of_ne _ (fun hkk => hne (congrArg some hkk.symm)) _
  | mandate mandateId text =>
    simp only [apply] at h
    split at h <;> obtain rfl := Except.ok.inj h <;> rfl
  | approval => obtain rfl := Except.ok.inj h; exact hmod _ _ hne
  | cancel => obtain rfl := Except.ok.inj h; exact hmod _ _ hne
  | veto => obtain rfl := Except.ok.inj h; exact hmod _ _ hne
  | signed => obtain rfl := Except.ok.inj h; exact hmod _ _ hne
  | _ =>
    obtain rfl := Except.ok.inj h
    rfl

/-- The fields that settling leaves as they are. -/
structure SameBesidesTimes (r r' : IntentRecord) : Prop where
  intentId : r'.intentId = r.intentId
  text : r'.text = r.text
  intent : r'.intent = r.intent
  createdAt : r'.createdAt = r.createdAt
  approvals : r'.approvals = r.approvals
  cancelled : r'.cancelled = r.cancelled
  vetoed : r'.vetoed = r.vetoed
  signatures : r'.signatures = r.signatures
  mandateId : r'.mandateId = r.mandateId

theorem settle_same (s : SignerState) (r : IntentRecord) (t : ℤ) :
    SameBesidesTimes r (settle s r t) := by
  unfold settle
  repeat' split
  all_goals exact ⟨rfl, rfl, rfl, rfl, rfl, rfl, rfl, rfl, rfl⟩

theorem opened_same (s : SignerState) (r : IntentRecord) (t : ℤ) :
    SameBesidesTimes r (opened s r t) := by
  unfold opened
  split
  · exact settle_same s r t
  · exact ⟨rfl, rfl, rfl, rfl, rfl, rfl, rfl, rfl, rfl⟩

/-- Settling gives the times of the kind, or leaves them. -/
inductive Settles (s : SignerState) (r : IntentRecord) (t : ℤ) : Prop
  | untouched : settle s r t = r → Settles s r t
  | payout {policy} : s.policy = some policy → r.approvedAt = none → quorum s r = true →
      r.intent.kind = .payout →
      settle s r t = { r with
        approvedAt := some t
        signableAt := some (plus t (signDelay policy))
        signUntil := some (plus (plus t (signDelay policy)) policy.approvalWindowSec) } →
      Settles s r t
  | whitelist {policy} : s.policy = some policy → r.approvedAt = none → quorum s r = true →
      r.intent.kind = .whitelist →
      settle s r t = { r with
        approvedAt := some t
        activeFrom := some (plus t policy.whitelistCooldownSec) } → Settles s r t

theorem settles (s : SignerState) (r : IntentRecord) (t : ℤ) : Settles s r t := by
  cases ha : r.approvedAt with
  | some a => exact .untouched (by simp [settle, ha])
  | none =>
    cases hp : s.policy with
    | none => exact .untouched (by simp [settle, ha, hp])
    | some policy =>
      by_cases hq : quorum s r = true
      · cases hk : r.intent.kind with
        | payout => exact .payout hp ha hq hk (by simp [settle, ha, hp, hq, hk])
        | whitelist => exact .whitelist hp ha hq hk (by simp [settle, ha, hp, hq, hk])
      · exact .untouched (by simp [settle, ha, hp, hq])

/-! ## Mandates -/

/-- The mandate that an event is about. -/
def EventBody.mandateId? : EventBody → Option Text
  | .mandate mandateId _ => some mandateId
  | .mandateApproval mandateId .. => some mandateId
  | .mandateRevoked mandateId _ => some mandateId
  | _ => none

/-- Where the record of a mandate comes from, after an event. -/
inductive MandateChange (A : AddressLib) (s : SignerState) (e : SignerEvent) (k : Text) :
    MandateRecord → Prop
  | kept {m} : e.body.mandateId? ≠ some k → s.mandates.get k = some m → MandateChange A s e k m
  | unread {m text} : e.body = .mandate k text → s.mandates.get k = some m →
      MandateChange A s e k m
  | created {text m} : e.body = .mandate k text → parseMandate A text = .ok m →
      MandateChange A s e k (newMandate k text m e.time)
  | approved {m credId person counter} : e.body = .mandateApproval k credId person counter →
      s.mandates.get k = some m →
      MandateChange A s e k (m.approve (s.counted credId counter) ⟨credId, person, e.time⟩)
  | revoked {m origin} : e.body = .mandateRevoked k origin → s.mandates.get k = some m →
      MandateChange A s e k { m with revoked := true }

theorem mandates_of_apply {A : AddressLib} {s s' : SignerState} {e : SignerEvent}
    (h : apply A s e = .ok s') {k : Text} {m : MandateRecord} (hm : s'.mandates.get k = some m) :
    MandateChange A s e k m := by
  obtain ⟨n, t, body⟩ := e
  cases body with
  | intent intentId text mandateId =>
    obtain ⟨i, hi, hs⟩ := bind_eq_ok.mp h
    obtain rfl := Except.ok.inj hs
    exact .kept (by intro hc; cases hc) hm
  | mandate mandateId text =>
    simp only [apply] at h
    split at h
    · obtain rfl := Except.ok.inj h
      by_cases hk : k = mandateId
      · subst hk
        exact .unread rfl hm
      · exact .kept (fun hc => hk (Option.some.inj hc).symm) hm
    · rename_i mandate hparse
      obtain rfl := Except.ok.inj h
      rcases get_set_cases hm with ⟨rfl, rfl⟩ | ⟨hk, hm⟩
      · exact .created rfl hparse
      · exact .kept (fun hc => hk (Option.some.inj hc).symm) hm
  | mandateApproval mandateId credId person counter =>
    obtain rfl := Except.ok.inj h
    rcases get_modify_cases hm with ⟨rfl, v, hv, rfl⟩ | ⟨hk, hm⟩
    · exact .approved rfl hv
    · exact .kept (fun hc => hk (Option.some.inj hc).symm) hm
  | mandateRevoked mandateId origin =>
    obtain rfl := Except.ok.inj h
    rcases get_modify_cases hm with ⟨rfl, v, hv, rfl⟩ | ⟨hk, hm⟩
    · exact .revoked rfl hv
    · exact .kept (fun hc => hk (Option.some.inj hc).symm) hm
  | _ =>
    obtain rfl := Except.ok.inj h
    exact .kept (by intro hc; cases hc) hm

/-- The fields that an approval leaves as they are. -/
theorem approve_same (s : SignerState) (a : ApprovalRecord) (m : MandateRecord) :
    (m.approve s a).text = m.text ∧ (m.approve s a).mandate = m.mandate ∧
      (m.approve s a).createdAt = m.createdAt ∧ (m.approve s a).revoked = m.revoked ∧
      (m.approve s a).approvals = m.approvals ++ [a] := by
  unfold MandateRecord.approve
  simp only
  split <;> exact ⟨rfl, rfl, rfl, rfl, rfl⟩

/-! ## Keys -/

/-- The security key that an event is about. -/
def EventBody.credId? : EventBody → Option Text
  | .key _ _ credId .. => some credId
  | .keyRevoked credId => some credId
  | .approval _ credId .. => some credId
  | .mandateApproval _ credId .. => some credId
  | _ => none

/-- Where the record of a security key comes from, after an event. -/
inductive KeyChange (s : SignerState) (e : SignerEvent) (k : Text) : KeyRecord → Prop
  | kept {m} : e.body.credId? ≠ some k → s.keys.get k = some m → KeyChange s e k m
  | created {enrolId person spki aaguid counter} :
      e.body = .key enrolId person k spki aaguid counter →
      KeyChange s e k ⟨k, person, spki, aaguid, counter, true, e.time⟩
  | revoked {m} : e.body = .keyRevoked k → s.keys.get k = some m →
      KeyChange s e k { m with active := false }
  | used {m intentId person counter} : e.body = .approval intentId k person counter →
      s.keys.get k = some m → KeyChange s e k { m with counter := counter }
  | usedForMandate {m mandateId person counter} :
      e.body = .mandateApproval mandateId k person counter → s.keys.get k = some m →
      KeyChange s e k { m with counter := counter }

theorem keys_of_apply {A : AddressLib} {s s' : SignerState} {e : SignerEvent}
    (h : apply A s e = .ok s') {k : Text} {m : KeyRecord} (hm : s'.keys.get k = some m) :
    KeyChange s e k m := by
  obtain ⟨n, t, body⟩ := e
  cases body with
  | intent intentId text mandateId =>
    obtain ⟨i, hi, hs⟩ := bind_eq_ok.mp h
    obtain rfl := Except.ok.inj hs
    exact .kept (by intro hc; cases hc) hm
  | mandate mandateId text =>
    simp only [apply] at h
    split at h <;> obtain rfl := Except.ok.inj h <;> exact .kept (by intro hc; cases hc) hm
  | key enrolId person credId spki aaguid counter =>
    obtain rfl := Except.ok.inj h
    rcases get_set_cases hm with ⟨rfl, rfl⟩ | ⟨hk, hm⟩
    · exact .created rfl
    · exact .kept (fun hc => hk (Option.some.inj hc).symm) hm
  | keyRevoked credId =>
    obtain rfl := Except.ok.inj h
    rcases get_modify_cases hm with ⟨rfl, v, hv, rfl⟩ | ⟨hk, hm⟩
    · exact .revoked rfl hv
    · exact .kept (fun hc => hk (Option.some.inj hc).symm) hm
  | approval intentId credId person counter =>
    obtain rfl := Except.ok.inj h
    rcases get_modify_cases hm with ⟨rfl, v, hv, rfl⟩ | ⟨hk, hm⟩
    · exact .used rfl hv
    · exact .kept (fun hc => hk (Option.some.inj hc).symm) hm
  | mandateApproval mandateId credId person counter =>
    obtain rfl := Except.ok.inj h
    rcases get_modify_cases hm with ⟨rfl, v, hv, rfl⟩ | ⟨hk, hm⟩
    · exact .usedForMandate rfl hv
    · exact .kept (fun hc => hk (Option.some.inj hc).symm) hm
  | _ =>
    obtain rfl := Except.ok.inj h
    exact .kept (by intro hc; cases hc) hm

end Klick
