-- Every command of the signer, read for what it checks before it records: the
-- event of a decision is one that may be recorded in the state of the signer.
import Klick.Admitted

open Js

namespace Klick

/-! ## Reading a command -/

theorem coerced_eq_ok {α : Type} {v : Except Exn α} {a : α} : coerced v = .ok a ↔ v = .ok a :=
  mapError_eq_ok

theorem internal_eq_ok {ε α : Type} {v : Except ε α} {a : α} : internal v = .ok a ↔ v = .ok a :=
  mapError_eq_ok

theorem webauthn_eq_ok {α : Type} {v : Except WebAuthnThrown α} {a : α} :
    webauthn v = .ok a ↔ v = .ok a := mapError_eq_ok

theorem spent_eq_ok {α : Type} {v : Except SpendThrown α} {a : α} : spent v = .ok a ↔ v = .ok a :=
  mapError_eq_ok

theorem requireInit_eq_ok {s : SignerState} {i : InitRecord} {p : Policy} :
    requireInit s = .ok (i, p) ↔ s.init = some i ∧ s.policy = some p := by
  unfold requireInit
  cases s.init <;> cases s.policy <;> simp

theorem requireNotFrozen_eq_ok {s : SignerState} {u : Unit} :
    requireNotFrozen s = .ok u ↔ s.frozen = none := by
  rw [requireNotFrozen, check_eq_ok, Option.isNone_iff_eq_none]

theorem intentOf_eq_ok {s : SignerState} (hids : IdsMatch s) {v : Value} {r : IntentRecord}
    (h : intentOf s v = .ok r) : s.intents.get r.intentId = some r := by
  obtain ⟨id, -, h⟩ := bind_eq_ok.mp h
  have hr := orRefuse_eq_ok.mp h
  rw [hids.intents id r hr]
  exact hr

theorem mandateOf_eq_ok {s : SignerState} (hids : IdsMatch s) {v : Value} {m : MandateRecord}
    (h : mandateOf s v = .ok m) : s.mandates.get m.mandateId = some m := by
  obtain ⟨id, -, h⟩ := bind_eq_ok.mp h
  have hm := orRefuse_eq_ok.mp h
  rw [hids.mandates id m hm]
  exact hm

theorem activeKey_eq_ok {s : SignerState} {credId : Text} {key : KeyRecord} :
    activeKey s credId = .ok key ↔ s.keys.get credId = some key ∧ key.active = true := by
  unfold activeKey
  simp only [orRefuse_bind, check_bind, pure_eq_ok]
  constructor
  · rintro ⟨k, hk, ha, rfl⟩
    exact ⟨hk, ha⟩
  · rintro ⟨hk, ha⟩
    exact ⟨key, hk, ha, rfl⟩

theorem checkAssertion_eq_ok {P : Platform} {init : InitRecord} {key : KeyRecord} {text : Text}
    {a : Value} {counter : ℕ} (h : checkAssertion P init key text a = .ok counter) :
    Asserted P init key text counter := by
  unfold checkAssertion at h
  obtain ⟨authenticatorData, -, h⟩ := bind_eq_ok.mp h
  obtain ⟨clientDataJSON, -, h⟩ := bind_eq_ok.mp h
  obtain ⟨signature, -, h⟩ := bind_eq_ok.mp h
  exact ⟨_, webauthn_eq_ok.1 h⟩

def EventBody.isInit : EventBody → Bool
  | .init .. => true
  | _ => false

/-- The event neither initialises nor opens an intent. -/
def EventBody.isPlain : EventBody → Bool
  | .init .. => false
  | .intent .. => false
  | _ => true

/-- The id of a new intent is drawn by the call that opens it. -/
def Drawn (call : Call) (body : EventBody) : Prop :=
  ∀ id text mandateId, body = .intent id text mandateId → id = call.randomHex 0 16

theorem noInit_of_isPlain {body : EventBody} (h : body.isPlain = true) : body.isInit = false := by
  cases body with
  | init => cases h
  | _ => rfl

theorem drawn_of_isPlain {call : Call} {body : EventBody} (h : body.isPlain = true) :
    Drawn call body := by
  rintro id text mandateId rfl
  cases h

/-- The event of a decision may be recorded, and then the answer is there. -/
structure Decision.Sound (P : Platform) (s : SignerState) (call : Call) (d : Decision) : Prop where
  admitted : ∀ body, d.event = some body → Admitted P s call.clock.now body
  noInit : ∀ body, d.event = some body → body.isInit = false
  drawn : ∀ body, d.event = some body → Drawn call body
  replies : ∀ body n t g, d.event = some body → apply P.addresses s ⟨n, t, body⟩ = .ok g.state →
    ∃ v, d.reply g = .ok v

section Sound

variable {P : Platform} {s : SignerState} {call : Call}

theorem sound_answer (v : Value) : (Decision.answer v).Sound P s call :=
  ⟨fun _ h => (nomatch h), fun _ h => (nomatch h), fun _ h => (nomatch h),
    fun _ _ _ _ h => (nomatch h)⟩

theorem sound_recordThen {body : EventBody} (h : Admitted P s call.clock.now body)
    (hp : body.isPlain = true) (reply : Signer → Value) :
    (Decision.recordThen body reply).Sound P s call :=
  ⟨fun _ hb => Option.some.inj hb ▸ h, fun _ hb => Option.some.inj hb ▸ noInit_of_isPlain hp,
    fun _ hb => Option.some.inj hb ▸ drawn_of_isPlain hp, fun _ _ _ g _ _ => ⟨reply g, rfl⟩⟩

theorem sound_intent {text : Text} {mandateId : Option Text}
    (h : Admitted P s call.clock.now (.intent (call.randomHex 0 16) text mandateId))
    (reply : Signer → Value) :
    (Decision.recordThen (.intent (call.randomHex 0 16) text mandateId) reply).Sound P s call := by
  refine ⟨fun _ hb => Option.some.inj hb ▸ h, ?_, ?_, fun _ _ _ g _ _ => ⟨reply g, rfl⟩⟩
  · rintro _ ⟨⟩
    rfl
  · rintro _ ⟨⟩ _ _ _ ⟨⟩
    rfl

end Sound

section Commands

variable {P : Platform} {g : Signer} {call : Call} {d : Decision}

/-! ## Accounts and keys -/

theorem accountCreate_sound (h : accountCreate P g call = .ok d) :
    d.Sound P g.state call := by
  unfold accountCreate at h
  simp only [bind_eq_ok, check_eq_ok, orRefuse_eq_ok, exists_const] at h
  obtain ⟨a, -, ⟨init, policy⟩, -, orgId, -, -, accountId, -, net, -, fingerprint, -, h⟩ := h
  split at h
  · simp only [check_bind, pure_eq_ok] at h
    obtain ⟨-, rfl⟩ := h
    exact sound_answer _
  · rename_i hnone
    simp only [bind_eq_ok, pure_eq_ok] at h
    obtain ⟨xpub, -, rfl⟩ := h
    exact sound_recordThen (.account hnone) rfl _

theorem enrolmentOf_eq_ok {a : Value} {id : Text} {en : EnrolmentRecord}
    (h : enrolmentOf g.state a = .ok (id, en)) : g.state.enrolments.get id = some en := by
  unfold enrolmentOf at h
  simp only [bind_eq_ok, orRefuse_eq_ok, pure_eq_ok, Prod.mk.injEq] at h
  obtain ⟨_, -, _, hen, rfl, rfl⟩ := h
  exact hen

theorem enrolFinish_sound (h : enrolFinish P g call = .ok d) :
    d.Sound P g.state call := by
  unfold enrolFinish at h
  simp only [bind_eq_ok, check_eq_ok, exists_const, pure_eq_ok] at h
  obtain ⟨a, -, ⟨init, policy⟩, -, ⟨id, en⟩, hen, hdone, hnow, input, -, out, -, hnew, rfl⟩ := h
  refine sound_recordThen (.key (enrolmentOf_eq_ok hen) ?_ ?_ ?_) rfl _
  · simpa using hdone
  · simpa using hnow
  · simpa using hnew

theorem enrolStart_sound (h : enrolStart g call = .ok d) : d.Sound P g.state call := by
  unfold enrolStart at h
  simp only [bind_eq_ok, pure_eq_ok] at h
  obtain ⟨a, -, ⟨init, policy⟩, -, person, -, ttl, -, rfl⟩ := h
  exact sound_recordThen .enrolStart rfl _

theorem keyRevoke_sound (h : keyRevoke g call = .ok d) : d.Sound P g.state call := by
  unfold keyRevoke at h
  simp only [bind_eq_ok, orRefuse_eq_ok] at h
  obtain ⟨a, -, credId, -, k, hk, h⟩ := h
  by_cases hactive : k.active = true
  · rw [if_pos hactive] at h
    obtain rfl := pure_eq_ok.mp h
    exact sound_recordThen (.keyRevoked hk hactive) rfl _
  · rw [if_neg hactive] at h
    obtain rfl := pure_eq_ok.mp h
    exact sound_answer _

/-! ## Braking and loosening -/

theorem freeze_sound {origin : By} (h : freeze P origin g call = .ok d) :
    d.Sound P g.state call := by
  unfold freeze at h
  simp only [bind_eq_ok] at h
  obtain ⟨a, -, reason, -, _, -, h⟩ := h
  split at h
  · obtain rfl := pure_eq_ok.mp h
    exact sound_answer _
  · rename_i hnone
    obtain rfl := pure_eq_ok.mp h
    exact sound_recordThen (.freeze hnone) rfl _

theorem unfreeze_sound (h : unfreeze g = .ok d) : d.Sound P g.state call := by
  unfold unfreeze at h
  simp only [bind_eq_ok] at h
  obtain ⟨_, -, h⟩ := h
  split at h
  · rename_i hsome
    obtain rfl := pure_eq_ok.mp h
    exact sound_recordThen (.unfreeze (by rw [hsome]; rfl)) rfl _
  · obtain rfl := pure_eq_ok.mp h
    exact sound_answer _

theorem checkPolicyChain_eq_ok {next : Value} {hn : next.Normal} {prev p : Policy}
    (h : checkPolicyChain P g next hn = .ok (prev, p)) :
    g.state.policy = some prev ∧ p.raw = next := by
  unfold checkPolicyChain at h
  simp only [bind_eq_ok, check_eq_ok, exists_const] at h
  obtain ⟨⟨init, policy⟩, hinit, -, -, h⟩ := h
  split at h
  · cases h
  · simp only [pure_eq_ok, Prod.mk.injEq] at h
    obtain ⟨rfl, rfl⟩ := h
    exact ⟨(requireInit_eq_ok.1 hinit).2, rfl⟩
  · cases h

theorem policyTighten_sound (h : policyTighten P g call = .ok d) :
    d.Sound P g.state call := by
  unfold policyTighten at h
  simp only [bind_eq_ok, check_eq_ok, exists_const, coerced_eq_ok, pure_eq_ok] at h
  obtain ⟨next, -, ⟨current, p⟩, hchain, tightens, ht, hyes, rfl⟩ := h
  obtain ⟨hp, hraw⟩ := checkPolicyChain_eq_ok hchain
  refine sound_recordThen (.policy hp fun _ => ?_) rfl _
  rw [ht, hyes]

theorem policySet_sound (h : policySet P g call = .ok d) : d.Sound P g.state call := by
  unfold policySet at h
  simp only [bind_eq_ok, pure_eq_ok] at h
  obtain ⟨next, -, ⟨current, p⟩, hchain, rfl⟩ := h
  refine sound_recordThen (.policy (checkPolicyChain_eq_ok hchain).1 ?_) rfl _
  nofun

/-! ## Approving and closing -/

theorem approve_sound (hids : IdsMatch g.state) (h : approve P g call = .ok d) :
    d.Sound P g.state call := by
  unfold approve at h
  simp only [bind_eq_ok, check_eq_ok, exists_const, pure_eq_ok] at h
  obtain ⟨a, -, ⟨init, policy⟩, hinit, _, hfrozen, r, hr, hopen, hnow, hmandate, credId, -, key,
    hkey, hnew, counter, hcounter, rfl⟩ := h
  obtain ⟨hget, hactive⟩ := activeKey_eq_ok.1 hkey
  simp only [Bool.and_eq_true, Bool.not_eq_true'] at hopen
  refine sound_recordThen (.approval (requireInit_eq_ok.1 hinit).1
    (requireNotFrozen_eq_ok.1 hfrozen) (intentOf_eq_ok hids hr) hopen.1 hopen.2 ?_ ?_ hget hactive
    ?_ (checkAssertion_eq_ok hcounter)) rfl _
  · simpa using hnow
  · simpa using hmandate
  · simpa using hnew

theorem intentCancel_sound (hids : IdsMatch g.state) {origin : By}
    (h : intentCancel origin g call = .ok d) : d.Sound P g.state call := by
  unfold intentCancel at h
  simp only [bind_eq_ok, check_eq_ok, exists_const] at h
  obtain ⟨a, -, r, hr, hsig, h⟩ := h
  by_cases hc : r.cancelled = true
  · rw [if_pos hc] at h
    obtain rfl := pure_eq_ok.mp h
    exact sound_answer _
  · rw [if_neg hc] at h
    obtain rfl := pure_eq_ok.mp h
    exact sound_recordThen (.cancel (intentOf_eq_ok hids hr) (of_decide_eq_true hsig)) rfl _

theorem whitelistVeto_sound (hids : IdsMatch g.state) (h : whitelistVeto g call = .ok d) :
    d.Sound P g.state call := by
  unfold whitelistVeto at h
  simp only [bind_eq_ok, check_eq_ok, exists_const] at h
  obtain ⟨a, -, r, hr, hkind, h⟩ := h
  by_cases hv : r.vetoed = true
  · rw [if_pos hv] at h
    obtain rfl := pure_eq_ok.mp h
    exact sound_answer _
  · rw [if_neg hv] at h
    obtain rfl := pure_eq_ok.mp h
    exact sound_recordThen (.veto (intentOf_eq_ok hids hr) (of_decide_eq_true hkind)) rfl _

/-! ## Mandates -/

theorem mandateGetValue_of_get {s : SignerState} {m : MandateRecord} {id : Text} {now : ℤ}
    {init : InitRecord} {policy : Policy} (hinit : requireInit s = .ok (init, policy))
    (hid : isUuid id = true) (hm : s.mandates.get id = some m) :
    ∃ v, mandateGetValue P s now (.str id) = .ok v := by
  have hu : uuid (.str id) (js "mandateId") = .ok id := formatted_eq_ok.mpr ⟨rfl, hid⟩
  unfold mandateGetValue mandateOf
  rw [hinit, hu]
  simp only [bind_eq_ok, Except.ok.injEq, orRefuse_eq_ok, pure_eq_ok]
  exact ⟨_, _, rfl, m, ⟨id, rfl, hm⟩, rfl⟩

/-- A mandate that was just recorded can be shown. -/
theorem mandateGetValue_recorded {s s' : SignerState} {m : Mandate} {text : Text} {n : ℕ}
    {t now : ℤ} {init : InitRecord} {policy : Policy} (hinit : requireInit s = .ok (init, policy))
    (hm : parseMandate P.addresses text = .ok m)
    (h : apply P.addresses s ⟨n, t, .mandate m.mandateId text⟩ = .ok s') :
    ∃ v, mandateGetValue P s' now (.str m.mandateId) = .ok v := by
  simp only [apply, hm, Except.ok.injEq] at h
  subst h
  have hget := OrderedMap.get_set_self s.mandates m.mandateId (newMandate m.mandateId text m t)
  exact mandateGetValue_of_get hinit (of_parseMandate hm).1.mandateId hget

theorem mandateCreate_sound (h : mandateCreate P g call = .ok d) :
    d.Sound P g.state call := by
  unfold mandateCreate at h
  simp only [bind_eq_ok, check_eq_ok, exists_const, mapError_eq_ok] at h
  obtain ⟨a, -, ⟨init, policy⟩, hinit, _, -, m, hm, -, h⟩ := h
  split at h
  · simp only [bind_eq_ok, check_eq_ok, exists_const, pure_eq_ok] at h
    obtain ⟨-, v, -, rfl⟩ := h
    exact sound_answer v
  · rename_i hnone
    simp only [bind_eq_ok, check_eq_ok, exists_const, pure_eq_ok] at h
    obtain ⟨_, -, -, -, -, -, rfl⟩ := h
    constructor
    · rintro _ ⟨⟩
      exact .mandate hm hnone
    · rintro _ ⟨⟩
      rfl
    · rintro _ ⟨⟩
      exact drawn_of_isPlain rfl
    · rintro _ n t g' ⟨⟩ happ
      exact mandateGetValue_recorded hinit hm happ

theorem mandateApprove_sound (hids : IdsMatch g.state) (h : mandateApprove P g call = .ok d) :
    d.Sound P g.state call := by
  unfold mandateApprove at h
  simp only [bind_eq_ok, check_eq_ok, exists_const, pure_eq_ok] at h
  obtain ⟨a, -, ⟨init, policy⟩, hinit, _, hfrozen, m, hm, hopen, -, -, credId, -, key, hkey, hself,
    hnew, counter, hcounter, rfl⟩ := h
  obtain ⟨hget, hactive⟩ := activeKey_eq_ok.1 hkey
  refine sound_recordThen (.mandateApproval (requireInit_eq_ok.1 hinit).1
    (requireNotFrozen_eq_ok.1 hfrozen) (mandateOf_eq_ok hids hm) ?_ hget hactive
    (of_decide_eq_true hself) ?_ (checkAssertion_eq_ok hcounter)) rfl _
  · simpa using hopen
  · simpa using hnew

theorem mandateRevoke_sound (hids : IdsMatch g.state) {origin : By}
    (h : mandateRevoke origin g call = .ok d) : d.Sound P g.state call := by
  unfold mandateRevoke at h
  simp only [bind_eq_ok] at h
  obtain ⟨a, -, m, hm, h⟩ := h
  by_cases hr : m.revoked = true
  · rw [if_pos hr] at h
    obtain rfl := pure_eq_ok.mp h
    exact sound_answer _
  · rw [if_neg hr] at h
    obtain rfl := pure_eq_ok.mp h
    exact sound_recordThen (.mandateRevoked (mandateOf_eq_ok hids hm)) rfl _

/-! ## Signing -/

theorem checkNetwork_eq_ok {net : WalletNetwork} {policy : Policy} {u : Unit}
    (h : checkNetwork P g net policy = .ok u) :
    policy.includesNetwork net = true ∧ net.live = false := by
  unfold checkNetwork at h
  simp only [bind_eq_ok, check_eq_ok, exists_const] at h
  obtain ⟨hin, hlive, -⟩ := h
  exact ⟨hin, by simpa using hlive⟩

theorem checkMandate_eq_ok {s : SignerState} {r : IntentRecord} {now : ℤ} {u : Unit}
    (h : checkMandate s r now = .ok u) :
    ∀ id, r.namedMandate = some id → MandateValid s now id := by
  intro id hid
  unfold checkMandate at h
  rw [hid] at h
  simp only at h
  split at h
  · cases h
  · rename_i m hm
    simp only [bind_eq_ok, check_eq_ok, exists_const] at h
    exact ⟨m, hm, by simpa using h.1, of_decide_eq_true h.2⟩

theorem checkFirst_eq_ok {policy : Policy} {r : IntentRecord} {i : Payout} {now : ℤ} {u : Unit}
    (h : checkFirst P g policy r i now = .ok u) : FirstGuards g.state policy r i now := by
  unfold checkFirst at h
  simp only [bind_eq_ok, check_eq_ok, exists_const, orRefuse_eq_ok, coerced_eq_ok,
    decide_eq_true_eq] at h
  obtain ⟨_, hmandate, -, hquorum, t, ht, hsignable, huntil, w, hw, _, hnet, allowed, hallowed,
    rfl⟩ := h
  exact ⟨checkMandate_eq_ok hmandate, hquorum, ⟨t, ht, hsignable⟩, huntil, ⟨w, hw⟩,
    checkNetwork_eq_ok hnet, hallowed⟩

theorem checkReplacement_eq_ok {r : IntentRecord} {mode : SignMode} {first last : Signature}
    (h : checkReplacement r mode = .ok (first, last)) :
    r.first = some first ∧ r.last = some last := by
  unfold checkReplacement at h
  simp only [bind_eq_ok, check_eq_ok, exists_const, orRefuse_eq_ok, pure_eq_ok,
    Prod.mk.injEq] at h
  obtain ⟨_, hfirst, _, hlast, -, rfl, rfl⟩ := h
  exact ⟨hfirst, hlast⟩

/-- The coins of a target are fresh, or those of the first signature. -/
theorem btcTarget_admits {r : IntentRecord} {i : Payout} {keyAt : ℕ → ℕ → Except KeyError BtcKey}
    {mode : SignMode} {inputs : List BtcSpendInput} {fee : ℕ} {replaced : Replaced}
    {target : BtcTarget} (h : btcTarget P g r i keyAt mode inputs fee replaced = .ok target)
    (hchain : i.network.chain = .bitcoin) (hnodup : (inputs.map (·.outpoint)).Nodup)
    (changeIndex : Option ℕ) :
    SpendAdmitted g.state r i replaced (.bitcoin (inputs.map (·.outpoint)) changeIndex) := by
  unfold btcTarget at h
  cases replaced with
  | none =>
    simp only [bind_eq_ok] at h
    obtain ⟨_, hreserved, -⟩ := h
    refine .coins hchain hnodup fun o ho id hid => ?_
    have hall := List.all_eq_true.mp (check_eq_ok.mp hreserved) o ho
    rw [hid] at hall
    simpa using hall
  | some pair =>
    obtain ⟨first, last⟩ := pair
    simp only [bind_eq_ok, check_eq_ok, exists_const] at h
    exact .sameCoins hchain hnodup h.1

theorem signBtc_admits {r : IntentRecord} {i : Payout} {accountIndex : ℕ} {mode : SignMode}
    {plan : Value} {policy : Policy} {replaced : Replaced} {draft : SpentDraft}
    (h : signBtc P g r i accountIndex mode plan policy replaced = .ok draft) :
    SpendAdmitted g.state r i replaced draft.spent := by
  unfold signBtc at h
  simp only [bind_eq_ok, spent_eq_ok, pure_eq_ok] at h
  obtain ⟨inputs, -, fee, -, keyAt, -, target, htarget, s, hs, rfl⟩ := h
  obtain ⟨txs, tx, hb⟩ := buildBtcSpend_built.mp hs
  exact btcTarget_admits htarget hb.chain (spendInputs_fresh hb.reads).1 _

theorem signEth_admits {r : IntentRecord} {i : Payout} {accountIndex : ℕ} {mode : SignMode}
    {plan : Value} {policy : Policy} {replaced : Replaced} {draft : SpentDraft}
    (hchain : i.network.chain = .ethereum)
    (h : signEth P g i accountIndex mode plan policy replaced = .ok draft) :
    SpendAdmitted g.state r i replaced draft.spent := by
  unfold signEth at h
  simp only [bind_eq_ok, pure_eq_ok] at h
  obtain ⟨nonce, -, gasLimit, -, maxFee, -, maxPriority, -, priv, -, _, hnonce, maxGwei, -, s, -,
    rfl⟩ := h
  unfold checkNonce at hnonce
  cases replaced with
  | none =>
    refine .nonce hchain fun highest hh => ?_
    simp only [hh] at hnonce
    exact of_decide_eq_true (check_eq_ok.mp hnonce)
  | some pair =>
    simp only [bind_eq_ok, check_eq_ok, exists_const] at hnonce
    exact .sameNonce hchain (of_decide_eq_true hnonce.1)

theorem signPlan_admits {policy : Policy} {r : IntentRecord} {i : Payout}
    {account : AccountRecord} {mode : SignMode} {replaced : Replaced} {a : Value} {e : Signed}
    (h : signPlan P g policy r i account mode replaced a = .ok e) :
    e.intentId = r.intentId ∧ e.mode = mode ∧ e.accountId = account.accountId ∧
      (e.network = i.network ∧ e.asset = i.asset ∧ e.amount = i.amount) ∧
      SpendAdmitted g.state r i replaced e.spent := by
  unfold signPlan at h
  simp only [bind_eq_ok, pure_eq_ok] at h
  obtain ⟨plan, -, draft, hdraft, rfl⟩ := h
  refine ⟨rfl, rfl, rfl, ⟨rfl, rfl, rfl⟩, ?_⟩
  unfold signChain at hdraft
  cases hchain : i.network.chain with
  | bitcoin =>
    rw [hchain] at hdraft
    exact signBtc_admits hdraft
  | ethereum =>
    rw [hchain] at hdraft
    exact signEth_admits hchain hdraft

theorem sign_sound (hids : IdsMatch g.state) (h : sign P g call = .ok d) :
    d.Sound P g.state call := by
  unfold sign at h
  simp only [bind_eq_ok, check_eq_ok, exists_const, orRefuse_eq_ok] at h
  obtain ⟨a, -, ⟨init, policy⟩, hinit, _, hfrozen, r, hr, mode, -, i, hi, hopen, account, haccount,
    h⟩ := h
  have hget := intentOf_eq_ok hids hr
  have hfor : ∀ {replaced e}, signPlan P g policy r i account mode replaced a = .ok e →
      SignedFor g.state e r i := by
    intro replaced e he
    obtain ⟨hid, -, hacc, hsame, -⟩ := signPlan_admits he
    refine ⟨requireNotFrozen_eq_ok.1 hfrozen, by rw [hid]; exact hget, hi, by simpa using hopen, ?_,
      hsame⟩
    rw [hacc, hids.accounts _ _ haccount]
  by_cases hmode : mode.isFirst = true
  · rw [if_pos hmode] at h
    split at h
    · obtain rfl := pure_eq_ok.mp h
      exact sound_answer _
    · rename_i hlast
      simp only [bind_eq_ok, pure_eq_ok] at h
      obtain ⟨_, hguards, e, he, rfl⟩ := h
      obtain ⟨-, hm, -, -, hspent⟩ := signPlan_admits he
      refine sound_recordThen (.first (hfor he) (requireInit_eq_ok.1 hinit).2 ?_ ?_
        (checkFirst_eq_ok hguards) hspent) rfl _
      · exact List.getLast?_eq_none_iff.mp hlast
      · rw [hm]
        cases mode with
        | first => rfl
        | _ => cases hmode
  · rw [if_neg hmode] at h
    simp only [bind_eq_ok, pure_eq_ok] at h
    obtain ⟨⟨first, last⟩, hrep, e, he, rfl⟩ := h
    obtain ⟨-, hm, -, -, hspent⟩ := signPlan_admits he
    obtain ⟨hfirst, hlast⟩ := checkReplacement_eq_ok hrep
    refine sound_recordThen (.again (hfor he) ?_ hfirst hlast hspent) rfl _
    rw [hm]
    simpa using hmode

/-! ## New intents -/

/-- The mandate that a payout names covers it, with what is used of it already. -/
theorem payoutMandate_eq_ok {s : SignerState} (hids : IdsMatch s) {now : ℤ} {initiator : Text}
    {net : WalletNetwork} {code : AssetCode} {amount : ℕ} {destination : Text} {raw : Value}
    {mandate : Option MandateRecord} {m : MandateRecord} (hm : mandate = some m)
    (h : payoutMandate s now initiator net code amount destination raw = .ok mandate) :
    s.mandates.get m.mandateId = some m ∧ mandateQuorum s m = true ∧
      mandateCovers m.mandate ⟨initiator, net, code, amount, destination, now,
        mandateUsed s m.mandateId now⟩ = .ok := by
  unfold payoutMandate at h
  split at h
  · subst hm
    cases h
  · simp only [bind_eq_ok, check_eq_ok, exists_const, pure_eq_ok] at h
    obtain ⟨m', hof, hq, huse, rfl⟩ := h
    obtain rfl := Option.some.inj hm
    exact ⟨mandateOf_eq_ok hids hof, hq, of_decide_eq_true huse⟩

/-- What a request for a payout comes to. -/
theorem payoutIntent_eq_ok (hids : IdsMatch g.state) {init : InitRecord} {policy : Policy}
    {now : ℤ} {fresh : FreshIntent} {a : Value} {intent : Intent} {mandate : Option MandateRecord}
    (h : payoutIntent P g init policy now fresh a = .ok (intent, mandate)) :
    intent.kind = .payout ∧ intent.Fits ∧ intent.intentId = fresh.intentId ∧
    ∃ p, payoutOf intent = some p ∧
      (∃ acc, g.state.accounts.get p.accountId = some acc ∧ acc.network = p.network) ∧
      (∃ w, activeDestination g.state p.network p.destination now = some w) ∧
      ∀ m, mandate = some m → g.state.mandates.get m.mandateId = some m ∧
        mandateQuorum g.state m = true ∧
        mandateCovers m.mandate ⟨intent.initiator, p.network, p.asset, p.amount, p.destination, now,
          mandateUsed g.state m.mandateId now⟩ = .ok := by
  unfold payoutIntent at h
  simp only [bind_eq_ok, check_eq_ok, exists_const, orRefuse_eq_ok, coerced_eq_ok, pure_eq_ok,
    Prod.mk.injEq] at h
  obtain ⟨accountId, hid, acc, hacc, _, -, code, -, amount, hamount, feeCap, hcap, _, -, -, _, -, -,
    active, hactive, mandate', hmandate, rfl, rfl⟩ := h
  have hne : accountId ≠ [] := by
    rintro rfl
    have := (formatted_eq_ok.mp hid).2
    cases this
  refine ⟨rfl, ⟨?_, ?_⟩, rfl, ⟨acc.network, accountId, code, amount,
    textOrEmpty (arg a "destination"), feeCap⟩, ?_, ⟨acc, hacc, rfl⟩, ⟨active, hactive⟩,
    fun m hm => payoutMandate_eq_ok hids hm hmandate⟩
  · rintro _ ⟨⟩
    exact (posUint_eq_ok hamount).2
  · rintro _ ⟨⟩
    exact uint_eq_ok hcap
  · simp only [payoutOf, if_neg hne, Option.getD_some]

theorem whitelistIntent_eq_ok {init : InitRecord} {policy : Policy} {now : ℤ}
    {fresh : FreshIntent} {a : Value} {intent : Intent}
    (h : whitelistIntent P g init policy now fresh a = .ok intent) :
    intent.kind = .whitelist ∧ intent.Fits ∧ intent.intentId = fresh.intentId := by
  unfold whitelistIntent at h
  simp only [bind_eq_ok, check_eq_ok, exists_const, pure_eq_ok] at h
  obtain ⟨net, -, -, -, -, rfl⟩ := h
  exact ⟨rfl, ⟨nofun, nofun⟩, rfl⟩

theorem intentCreate_sound (hids : IdsMatch g.state) (h : intentCreate P g call = .ok d) :
    d.Sound P g.state call := by
  unfold intentCreate at h
  simp only [bind_eq_ok, check_eq_ok, exists_const, mapError_eq_ok, pure_eq_ok] at h
  obtain ⟨a, -, ⟨init, policy⟩, -, _, hfrozen, -, -, initiator, -, ⟨intent, mandate⟩, hdraft, text,
    htext, rfl⟩ := h
  have hnamed : (mandate.map (·.mandateId)).filter (· ≠ []) ≠ some [] := by
    intro hm
    have := (Option.filter_eq_some_iff.mp hm).2
    simp at this
  have hfrozen := requireNotFrozen_eq_ok.1 hfrozen
  unfold draftIntent at hdraft
  split at hdraft
  · -- a whitelisting has no mandate
    rw [map_eq_ok] at hdraft
    obtain ⟨intent', hi, hpair⟩ := hdraft
    simp only [Prod.mk.injEq] at hpair
    obtain ⟨rfl, rfl⟩ := hpair
    obtain ⟨hkind, hfits, hid⟩ := whitelistIntent_eq_ok hi
    refine sound_intent (.intent ⟨hfrozen, htext, hfits, hid, ?_, fun _ => rfl, hnamed⟩) _
    intro hp
    rw [hkind] at hp
    cases hp
  · split at hdraft
    · obtain ⟨hkind, hfits, hid, p, hp, hacc, hactive, hmandate⟩ := payoutIntent_eq_ok hids hdraft
      refine sound_intent (.intent ⟨hfrozen, htext, hfits, hid, fun _ =>
        ⟨p, hp, hacc, hactive, ?_⟩, ?_, hnamed⟩) _
      · intro id hsome
        obtain ⟨m, rfl, rfl⟩ := Option.map_eq_some_iff.mp (Option.filter_eq_some_iff.mp hsome).1
        exact ⟨m, hmandate m rfl⟩
      · intro hw
        rw [hkind] at hw
        cases hw
    · cases hdraft

end Commands

end Klick
