-- Approvals as evidence. A credential belongs to one person in the whole journal, it
-- approves a text once, its counter rises as soon as it is in use, and behind every
-- approval stands an assertion about exactly that text.
import Klick.Changes
import Klick.Executions

open Js

namespace Klick

/-! ## What an assertion shows -/

/-- The counter of a credential rises, or it is not in use. -/
def CounterStep (m n : ℕ) : Prop := (m = 0 ∧ n = 0) ∨ m < n

theorem CounterStep.le {m n : ℕ} (h : CounterStep m n) : m ≤ n := by
  unfold CounterStep at h
  omega

/-- An assertion that passes signs its challenge with the key of the credential. -/
structure AssertionPasses (C : Crypto) (input : AssertionInput) (ctx : AssertionContext)
    (counter : ℕ) : Prop where
  challenge : ∃ cd, parseJson (utf8Decode (ofBase64Url input.clientDataJSON)) = .ok cd ∧
    cd.get (js "challenge") = .str (toBase64Url ctx.challenge)
  signature : C.verify (ofBase64Url ctx.spki) (ofBase64Url input.authenticatorData ++
    C.sha256.digest (ofBase64Url input.clientDataJSON)) (ofBase64Url input.signature) = .ok true
  counter : CounterStep ctx.storedCounter counter

theorem same_str {v : Value} {t : Text} (h : v.same (.str t) = true) : v = .str t := by
  cases v with
  | str s =>
    have hst : s = t := by simpa [Value.same] using h
    rw [hst]
  | _ => cases h

theorem clientProp_eq_ok {cd v : Value} {k : String} (h : clientProp cd k = .ok v) :
    cd.get (js k) = v := by
  unfold clientProp Value.prop at h
  rw [mapError_eq_ok] at h
  split at h
  · cases h
  · cases h
  · exact Except.ok.inj h

/-- Client data that passes is JSON with the challenge. -/
theorem checkClientData_challenge {raw : Bytes} {want : ClientDataWanted} {u : Unit}
    (h : checkClientData raw want = .ok u) : ∃ cd, parseJson (utf8Decode raw) = .ok cd ∧
      cd.get (js "challenge") = .str (toBase64Url want.challenge) := by
  unfold checkClientData at h
  simp only [bind_eq_ok, failUnless_eq_ok, mapError_eq_ok, exists_const] at h
  obtain ⟨-, cd, hcd, _, -, -, challenge, hget, hsame, -⟩ := h
  refine ⟨cd, hcd, ?_⟩
  rw [clientProp_eq_ok hget]
  exact same_str hsame

theorem verifyAssertion_passes {C : Crypto} {input : AssertionInput} {ctx : AssertionContext}
    {counter : ℕ} (h : verifyAssertion C input ctx = .ok counter) :
    AssertionPasses C input ctx counter := by
  unfold verifyAssertion at h
  simp only [bind_eq_ok, failUnless_eq_ok, mapError_eq_ok, exists_const, pure_eq_ok] at h
  obtain ⟨authData, hauth, cdj, hcdj, sig, hsig, _, hclient, a, -, _, -, spki, hspki, ok,
    hverify, rfl, hcounter, rfl⟩ := h
  obtain rfl := b64uDecode_eq_ok hauth
  obtain rfl := b64uDecode_eq_ok hcdj
  obtain rfl := b64uDecode_eq_ok hsig
  obtain rfl := b64uDecode_eq_ok hspki
  refine ⟨checkClientData_challenge hclient, hverify, ?_⟩
  simpa [CounterStep, and_comm] using hcounter

/-! ## The credentials of a journal -/

/-- The credential and the person that an event names. -/
def EventBody.named? : EventBody → Option (Text × Text)
  | .key _ person credId .. => some (credId, person)
  | .approval _ credId person _ => some (credId, person)
  | .mandateApproval _ credId person _ => some (credId, person)
  | _ => none

/-- The credential that an event enrols. -/
def EventBody.enrols? : EventBody → Option Text
  | .key _ _ credId .. => some credId
  | _ => none

/-- The counter that an event gives to a credential. -/
def EventBody.counter? (credId : Text) : EventBody → Option ℕ
  | .key _ _ c _ _ counter => if c = credId then some counter else none
  | .approval _ c _ counter => if c = credId then some counter else none
  | .mandateApproval _ c _ counter => if c = credId then some counter else none
  | _ => none

def enrolledIds (es : List Timed) : List Text := es.filterMap (·.event.body.enrols?)

/-- The counters of a credential, in the order of the journal. -/
def countersOf (es : List Timed) (credId : Text) : List ℕ :=
  es.filterMap (·.event.body.counter? credId)

theorem countersOf_concat (es : List Timed) (e : Timed) (c : Text) :
    countersOf (es ++ [e]) c = countersOf es c ++ (e.event.body.counter? c).toList := by
  unfold countersOf
  rw [List.filterMap_append]
  cases h : e.event.body.counter? c with
  | none => simp [h]
  | some n => simp [h]

/-- Who gets a counter is named. -/
theorem named_of_counter {body : EventBody} {c : Text} {n : ℕ} (h : body.counter? c = some n) :
    ∃ p, body.named? = some (c, p) := by
  cases body with
  | key _ person c' _ _ _ | approval _ c' person _ | mandateApproval _ c' person _ =>
    simp only [EventBody.counter?] at h
    by_cases hc : c' = c
    · rw [hc]
      exact ⟨person, rfl⟩
    · rw [if_neg hc] at h
      cases h
  | _ => cases h

/-- A key stays with its person, whatever happens to it. -/
theorem key_stays {P : Platform} {s s' : SignerState} {now : ℤ} {e : SignerEvent}
    (hadm : Admitted P s now e.body) (happly : apply P.addresses s e = .ok s') {c : Text}
    {k : KeyRecord} (hk : s.keys.get c = some k) :
    ∃ k', s'.keys.get c = some k' ∧ k'.person = k.person := by
  obtain ⟨n, t, body⟩ := e
  have hmod : ∀ (c' : Text) (f : KeyRecord → KeyRecord), (∀ k, (f k).person = k.person) →
      ∃ k', (s.keys.modify c' f).get c = some k' ∧ k'.person = k.person := by
    intro c' f hf
    rw [OrderedMap.get_modify]
    by_cases hc : c = c'
    · rw [if_pos hc, ← hc, hk]
      exact ⟨_, rfl, hf k⟩
    · rw [if_neg hc]
      exact ⟨k, hk, rfl⟩
  cases body with
  | intent =>
    obtain ⟨i, -, hs⟩ := bind_eq_ok.mp happly
    obtain rfl := Except.ok.inj hs
    exact ⟨k, hk, rfl⟩
  | mandate =>
    simp only [apply] at happly
    split at happly <;> obtain rfl := Except.ok.inj happly <;> exact ⟨k, hk, rfl⟩
  | key enrolId person credId spki aaguid counter =>
    obtain rfl := Except.ok.inj happly
    refine ⟨k, ?_, rfl⟩
    -- only a new credential is enrolled
    cases hadm with
    | key _ _ _ hnone =>
      rw [OrderedMap.get_set_of_ne, hk]
      rintro rfl
      rw [hnone] at hk
      cases hk
  | keyRevoked | approval | mandateApproval =>
    obtain rfl := Except.ok.inj happly
    exact hmod _ _ fun _ => rfl
  | _ =>
    obtain rfl := Except.ok.inj happly
    exact ⟨k, hk, rfl⟩

/-! ## The invariant -/

/-- A credential was enrolled for a person, with a public key. -/
def EnrolledWith (es : List Timed) (credId person spki : Text) : Prop :=
  ∃ e ∈ es, ∃ enrolId aaguid counter, e.event.body = .key enrolId person credId spki aaguid counter

theorem EnrolledWith.longer {es : List Timed} {credId person spki : Text}
    (h : EnrolledWith es credId person spki) (e : Timed) :
    EnrolledWith (es ++ [e]) credId person spki := by
  obtain ⟨x, hx, hbody⟩ := h
  exact ⟨x, List.mem_append_left _ hx, hbody⟩

/-- An approval comes from an event, after an assertion about the text with the public
key that the credential was enrolled with. -/
def Backed (P : Platform) (es : List Timed) (body : ApprovalRecord → ℕ → EventBody) (text : Text)
    (a : ApprovalRecord) : Prop :=
  ∃ e ∈ es, ∃ counter, e.event.time = a.time ∧ e.event.body = body a counter ∧
    ∃ (init : InitRecord) (key : KeyRecord) (input : AssertionInput),
      EnrolledWith es a.credId a.person key.spki ∧
      AssertionPasses P.crypto input
        ⟨init.rpId, init.origin, challengeOf P text, key.spki, key.counter⟩ counter

/-- The approvals of a text are by different credentials, and each is backed. -/
structure Evident (P : Platform) (es : List Timed) (body : ApprovalRecord → ℕ → EventBody)
    (text : Text) (approvals : List ApprovalRecord) : Prop where
  distinct : (approvals.map (·.credId)).Nodup
  backed : ∀ a ∈ approvals, Backed P es body text a

/-- The event of an approval of an intent. -/
def approvalOf (intentId : Text) (a : ApprovalRecord) (counter : ℕ) : EventBody :=
  .approval intentId a.credId a.person counter

/-- The event of an approval of a mandate. -/
def mandateApprovalOf (mandateId : Text) (a : ApprovalRecord) (counter : ℕ) : EventBody :=
  .mandateApproval mandateId a.credId a.person counter

section Evident

variable {P : Platform} {es : List Timed} {body : ApprovalRecord → ℕ → EventBody} {text : Text}
  {approvals : List ApprovalRecord}

theorem evident_nil : Evident P es body text [] := ⟨.nil, nofun⟩

theorem Evident.longer (h : Evident P es body text approvals) (e : Timed) :
    Evident P (es ++ [e]) body text approvals := by
  refine ⟨h.distinct, ?_⟩
  intro a ha
  obtain ⟨d, hd, counter, htime, hbody, init, key, input, henrolled, hpasses⟩ := h.backed a ha
  exact ⟨d, List.mem_append_left _ hd, counter, htime, hbody, init, key, input,
    henrolled.longer e, hpasses⟩

/-- One more approval, by a credential that has not approved yet. -/
theorem Evident.append (h : Evident P es body text approvals) {e : Timed} {a : ApprovalRecord}
    {counter : ℕ} {init : InitRecord} {key : KeyRecord} (hnew : ∀ x ∈ approvals, x.credId ≠ a.credId)
    (htime : e.event.time = a.time) (hbody : e.event.body = body a counter)
    (henrolled : EnrolledWith es a.credId a.person key.spki)
    (hasserted : Asserted P init key text counter) :
    Evident P (es ++ [e]) body text (approvals ++ [a]) := by
  obtain ⟨hdistinct, hbacked⟩ := h.longer e
  refine ⟨?_, ?_⟩
  · rw [List.map_append, List.map_singleton]
    refine List.nodup_append.mpr ⟨hdistinct, List.nodup_singleton _, ?_⟩
    intro c hc d hd
    obtain ⟨x, hx, rfl⟩ := List.mem_map.mp hc
    rw [List.mem_singleton.mp hd]
    exact hnew x hx
  · intro x hx
    rcases List.mem_append.mp hx with hx | hx
    · exact hbacked x hx
    · rw [List.mem_singleton.mp hx]
      obtain ⟨input, hinput⟩ := hasserted
      exact ⟨e, List.mem_append_right _ List.mem_cons_self, counter, htime, hbody, init, key, input,
        henrolled.longer e, verifyAssertion_passes hinput⟩

end Evident

structure Evidence (P : Platform) (s : SignerState) (es : List Timed) : Prop where
  owned : ∀ e ∈ es, ∀ c p, e.event.body.named? = some (c, p) →
    ∃ k, s.keys.get c = some k ∧ k.person = p
  enrolledWith : ∀ c k, s.keys.get c = some k → EnrolledWith es c k.person k.spki
  last : ∀ c k, s.keys.get c = some k → (countersOf es c).getLast? = some k.counter
  steps : ∀ c, (countersOf es c).IsChain CounterStep
  enrolled : (enrolledIds es).Nodup
  intents : ∀ k r, s.intents.get k = some r → Evident P es (approvalOf k) r.text r.approvals
  mandates : ∀ k m, s.mandates.get k = some m →
    Evident P es (mandateApprovalOf k) m.text m.approvals

section Step

variable {P : Platform} {s s' : SignerState} {es : List Timed} {now : ℤ} {e : SignerEvent}

/-- Who an admitted event names is the person of the key, before it or by it. -/
theorem named_owned (hadm : Admitted P s now e.body) (happly : apply P.addresses s e = .ok s')
    {c p : Text} (hn : e.body.named? = some (c, p)) :
    ∃ k, s'.keys.get c = some k ∧ k.person = p := by
  cases hb : e.body with
  | key enrolId person credId spki aaguid counter =>
    rw [hb] at hn
    obtain ⟨rfl, rfl⟩ := Prod.mk.inj (Option.some.inj hn)
    unfold apply at happly
    rw [hb] at happly
    rw [← Except.ok.inj happly]
    exact ⟨_, OrderedMap.get_set_self _ _ _, rfl⟩
  | approval intentId credId person counter =>
    rw [hb] at hn
    obtain ⟨rfl, rfl⟩ := Prod.mk.inj (Option.some.inj hn)
    have hkey : ∃ k, s.keys.get credId = some k ∧ k.person = person := by
      rw [hb] at hadm
      cases hadm with
      | approval _ _ _ _ _ _ _ hkey => exact ⟨_, hkey, rfl⟩
    obtain ⟨k, hk, hperson⟩ := hkey
    obtain ⟨k', hk', hsame⟩ := key_stays hadm happly hk
    exact ⟨k', hk', hsame.trans hperson⟩
  | mandateApproval mandateId credId person counter =>
    rw [hb] at hn
    obtain ⟨rfl, rfl⟩ := Prod.mk.inj (Option.some.inj hn)
    have hkey : ∃ k, s.keys.get credId = some k ∧ k.person = person := by
      rw [hb] at hadm
      cases hadm with
      | mandateApproval _ _ _ _ hkey => exact ⟨_, hkey, rfl⟩
    obtain ⟨k, hk, hperson⟩ := hkey
    obtain ⟨k', hk', hsame⟩ := key_stays hadm happly hk
    exact ⟨k', hk', hsame.trans hperson⟩
  | _ =>
    rw [hb] at hn
    cases hn

theorem Evidence.owned_step (h : Evidence P s es) (hadm : Admitted P s now e.body)
    (happly : apply P.addresses s e = .ok s') : ∀ x ∈ es ++ [⟨now, e⟩], ∀ c p,
      x.event.body.named? = some (c, p) → ∃ k, s'.keys.get c = some k ∧ k.person = p := by
  intro x hx c p hn
  rcases List.mem_append.mp hx with hx | hx
  · obtain ⟨k, hk, hperson⟩ := h.owned x hx c p hn
    obtain ⟨k', hk', hsame⟩ := key_stays hadm happly hk
    exact ⟨k', hk', hsame.trans hperson⟩
  · rw [List.mem_singleton.mp hx] at hn
    exact named_owned hadm happly hn

/-- A credential that is not there has no counters. -/
theorem Evidence.counters_of_none (h : Evidence P s es) {c : Text} (hc : s.keys.get c = none) :
    countersOf es c = [] := by
  unfold countersOf
  apply List.filterMap_eq_nil_iff.mpr
  intro x hx
  cases hcount : x.event.body.counter? c with
  | none => rfl
  | some n =>
    obtain ⟨p, hn⟩ := named_of_counter hcount
    obtain ⟨k, hk, -⟩ := h.owned x hx c p hn
    rw [hc] at hk
    cases hk

theorem Evidence.enrolledWith_step (h : Evidence P s es) (happly : apply P.addresses s e = .ok s')
    {c : Text} {k : KeyRecord} (hk : s'.keys.get c = some k) :
    EnrolledWith (es ++ [⟨now, e⟩]) c k.person k.spki := by
  cases keys_of_apply happly hk with
  | kept _ hold => exact (h.enrolledWith c k hold).longer _
  | created hbody => exact ⟨⟨now, e⟩, List.mem_append_right _ List.mem_cons_self, _, _, _, hbody⟩
  | @revoked m _ hold => exact (h.enrolledWith c m hold).longer _
  | @used m _ _ _ _ hold => exact (h.enrolledWith c m hold).longer _
  | @usedForMandate m _ _ _ _ hold => exact (h.enrolledWith c m hold).longer _

theorem Evidence.last_step (h : Evidence P s es) (happly : apply P.addresses s e = .ok s')
    {c : Text} {k : KeyRecord} (hk : s'.keys.get c = some k) :
    (countersOf (es ++ [⟨now, e⟩]) c).getLast? = some k.counter := by
  rw [countersOf_concat]
  cases keys_of_apply happly hk with
  | kept hne hold =>
    have hnone : e.body.counter? c = none := by
      cases hcount : e.body.counter? c with
      | none => rfl
      | some n =>
        obtain ⟨p, hn⟩ := named_of_counter hcount
        cases hb : e.body <;> rw [hb] at hn hne <;> cases hn <;> exact absurd rfl hne
    rw [hnone, Option.toList_none, List.append_nil]
    exact h.last c k hold
  | @revoked m hbody hold =>
    rw [hbody]
    simp only [EventBody.counter?, Option.toList_none, List.append_nil]
    exact h.last c m hold
  | created hbody | used hbody _ | usedForMandate hbody _ =>
    rw [hbody, EventBody.counter?, if_pos rfl]
    exact List.getLast?_concat

/-- The counter of an event follows the counter before it. -/
theorem Evidence.steps_step (h : Evidence P s es) (hadm : Admitted P s now e.body) (c : Text) :
    (countersOf (es ++ [⟨now, e⟩]) c).IsChain CounterStep := by
  rw [countersOf_concat]
  have hnext : ∀ k : KeyRecord, s.keys.get c = some k → ∀ n, CounterStep k.counter n →
      (countersOf es c ++ [n]).IsChain CounterStep := by
    intro k hk n hstep
    refine List.isChain_append.mpr ⟨h.steps c, List.isChain_singleton n, ?_⟩
    intro m hm n' hn'
    rw [h.last c k hk] at hm
    obtain rfl := Option.some.inj hm
    obtain rfl := Option.some.inj hn'
    exact hstep
  cases hcount : e.body.counter? c with
  | none =>
    rw [Option.toList_none, List.append_nil]
    exact h.steps c
  | some n =>
    rw [Option.toList_some]
    generalize e.body = body at hadm hcount
    cases hadm with
    | key _ _ _ hnone =>
      simp only [EventBody.counter?] at hcount
      split at hcount
      · rename_i hc
        rw [hc] at hnone
        rw [h.counters_of_none hnone]
        exact List.isChain_singleton n
      · cases hcount
    | approval _ _ _ _ _ _ _ hkey _ _ hasserted | mandateApproval _ _ _ _ hkey _ _ _ hasserted =>
      simp only [EventBody.counter?] at hcount
      split at hcount
      · rename_i hc
        rw [hc] at hkey
        obtain rfl := Option.some.inj hcount
        obtain ⟨input, hinput⟩ := hasserted
        exact hnext _ hkey _ (verifyAssertion_passes hinput).counter
      · cases hcount
    | _ => cases hcount

theorem Evidence.enrolled_step (h : Evidence P s es) (hadm : Admitted P s now e.body) :
    (enrolledIds (es ++ [⟨now, e⟩])).Nodup := by
  unfold enrolledIds
  rw [List.filterMap_append]
  refine List.nodup_append.mpr ⟨h.enrolled, ?_, ?_⟩
  · cases henrol : e.body.enrols? <;> simp [henrol]
  · intro c hc d hd hcd
    subst hcd
    obtain ⟨x, hx, hxc⟩ := List.mem_filterMap.mp hc
    have hnone : s.keys.get c = none := by
      have henrol : e.body.enrols? = some c := by
        obtain ⟨y, hy, hyc⟩ := List.mem_filterMap.mp hd
        rw [List.mem_singleton.mp hy] at hyc
        exact hyc
      generalize e.body = body at hadm henrol
      cases hadm with
      | key _ _ _ hnone =>
        rw [← Option.some.inj henrol]
        exact hnone
      | _ => cases henrol
    -- who was enrolled before is there
    have hnamed : ∃ p, x.event.body.named? = some (c, p) := by
      cases hb : x.event.body with
      | key _ person credId =>
        rw [hb] at hxc
        rw [← Option.some.inj hxc]
        exact ⟨person, rfl⟩
      | _ =>
        rw [hb] at hxc
        cases hxc
    obtain ⟨p, hp⟩ := hnamed
    obtain ⟨k, hk, -⟩ := h.owned x hx c p hp
    rw [hnone] at hk
    cases hk

theorem Evidence.intents_step (h : Evidence P s es)
    (hadm : Admitted P s now e.body) (happly : apply P.addresses s e = .ok s') {k : Text}
    {r : IntentRecord} (hr : s'.intents.get k = some r) :
    Evident P (es ++ [⟨now, e⟩]) (approvalOf k) r.text r.approvals := by
  cases intents_of_apply happly hr with
  | kept _ hold => exact (h.intents k r hold).longer _
  | created _ _ =>
    rw [(opened_same _ _ _).approvals]
    exact evident_nil
  | @cancelled r0 _ _ hold => exact (h.intents k r0 hold).longer _
  | @vetoed r0 _ hold => exact (h.intents k r0 hold).longer _
  | @signed r0 _ _ _ hold => exact (h.intents k r0 hold).longer _
  | @approved r0 credId person counter hbody hold =>
    have hsame := settle_same (s.counted credId counter) (r0.approvedBy credId person e.time) e.time
    rw [hsame.approvals, hsame.text]
    have hold' := h.intents k r0 hold
    rw [hbody] at hadm
    generalize hkey : EventBody.approval k credId person counter = body at hadm
    cases hadm with
    | @approval q _ key _ init _ _ hq _ _ _ _ hget _ hnew hasserted =>
      obtain ⟨rfl, rfl, rfl, rfl⟩ := EventBody.approval.inj hkey
      rw [hold] at hq
      obtain rfl := Option.some.inj hq
      exact hold'.append hnew rfl hbody (h.enrolledWith _ _ hget) hasserted
    | _ => cases hkey

theorem Evidence.mandates_step (h : Evidence P s es)
    (hadm : Admitted P s now e.body) (happly : apply P.addresses s e = .ok s') {k : Text}
    {m : MandateRecord} (hm : s'.mandates.get k = some m) :
    Evident P (es ++ [⟨now, e⟩]) (mandateApprovalOf k) m.text m.approvals := by
  cases mandates_of_apply happly hm with
  | kept _ hold | unread _ hold => exact (h.mandates k m hold).longer _
  | created _ _ => exact evident_nil
  | @revoked m0 _ _ hold => exact (h.mandates k m0 hold).longer _
  | @approved m0 credId person counter hbody hold =>
    obtain ⟨htext, -, -, -, happrovals⟩ :=
      approve_same (s.counted credId counter) ⟨credId, person, e.time⟩ m0
    rw [htext, happrovals]
    have hold' := h.mandates k m0 hold
    rw [hbody] at hadm
    generalize hkey : EventBody.mandateApproval k credId person counter = body at hadm
    cases hadm with
    | @mandateApproval q _ key _ init _ _ hq _ hget _ _ hnew hasserted =>
      obtain ⟨rfl, rfl, rfl, rfl⟩ := EventBody.mandateApproval.inj hkey
      rw [hold] at hq
      obtain rfl := Option.some.inj hq
      exact hold'.append hnew rfl hbody (h.enrolledWith _ _ hget) hasserted
    | _ => cases hkey

end Step

theorem History.evidence {P : Platform} {s : SignerState} {es : List Timed} (h : History P s es) :
    Evidence P s es := by
  apply History.induct _ _ h
  · refine ⟨?_, ?_, ?_, fun _ => .nil, .nil, ?_, ?_⟩
    · intro e he
      exact absurd he List.not_mem_nil
    · intro c k hk
      cases hk
    · intro c k hk
      cases hk
    · intro k r hr
      cases hr
    · intro k m hm
      cases hm
  · intro s s' es now e _ ih hadm happly
    exact ⟨ih.owned_step hadm happly, fun c k hk => ih.enrolledWith_step happly hk,
      fun c k hk => ih.last_step happly hk, ih.steps_step hadm, ih.enrolled_step hadm,
      fun k r hr => ih.intents_step hadm happly hr,
      fun k m hm => ih.mandates_step hadm happly hm⟩

/-! ## In every run -/

/-- **Approvals are evidence.** In every run a credential is enrolled once, and all
events that name it name one person, that of its key; its counters in the journal
rise as soon as they are not zero, up to the counter of the state. The approvals
of an intent and of a mandate are by different credentials, and each comes from an
event whose assertion has the hash of exactly that text as its challenge. -/
theorem approvals_are_evidence {P : Platform} (hA : AddressShapes P.addresses) {as : List Action}
    {g : Signer} {es : List Timed} (h : Run P as g es) :
    (enrolledIds es).Nodup ∧
    (∀ d ∈ es, ∀ e ∈ es, ∀ c p q, d.event.body.named? = some (c, p) →
      e.event.body.named? = some (c, q) → p = q) ∧
    (∀ c k, g.state.keys.get c = some k →
      (∀ e ∈ es, ∀ p, e.event.body.named? = some (c, p) → p = k.person) ∧
      (countersOf es c).getLast? = some k.counter) ∧
    (∀ c, (countersOf es c).IsChain CounterStep) ∧
    (∀ k r, g.state.intents.get k = some r → Evident P es (approvalOf k) r.text r.approvals) ∧
    ∀ k m, g.state.mandates.get k = some m →
      Evident P es (mandateApprovalOf k) m.text m.approvals := by
  have hev := (h.reached hA).history.evidence
  refine ⟨hev.enrolled, ?_, ?_, hev.steps, hev.intents, hev.mandates⟩
  · intro d hd e he c p q hp hq
    obtain ⟨k, hk, rfl⟩ := hev.owned d hd c p hp
    obtain ⟨k', hk', rfl⟩ := hev.owned e he c q hq
    rw [hk] at hk'
    rw [Option.some.inj hk']
  · intro c k hk
    refine ⟨?_, hev.last c k hk⟩
    intro e he p hp
    obtain ⟨k', hk', rfl⟩ := hev.owned e he c p hp
    rw [hk] at hk'
    rw [Option.some.inj hk']

/-- The approvals of the sample, one of an address, one of a payout and one of a mandate. -/
theorem sample_approvals_are_evidence :
    (enrolledIds sample.2).Nodup ∧
    (∀ c, (countersOf sample.2 c).IsChain CounterStep) ∧
    (∀ k r, sample.1.state.intents.get k = some r →
      Evident samplePlatform sample.2 (approvalOf k) r.text r.approvals) ∧
    ∀ k m, sample.1.state.mandates.get k = some m →
      Evident samplePlatform sample.2 (mandateApprovalOf k) m.text m.approvals := by
  obtain ⟨henrolled, -, -, hsteps, hintents, hmandates⟩ :=
    approvals_are_evidence sampleLib_shapes sample_run
  exact ⟨henrolled, hsteps, hintents, hmandates⟩

end Klick
