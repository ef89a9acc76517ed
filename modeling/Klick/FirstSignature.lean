-- The first signature of a payout. It is given only to a payout that is open,
-- approved by keys that are active now, within its window, and to a destination
-- whose whitelisting is in force, whatever happened before.
import Klick.Changes
import Klick.Executions

open Js

namespace Klick

/-! ## What must hold at the first signature -/

/-- The approvals that release a payout: its own, or those of its mandate. -/
def backing (s : SignerState) (r : IntentRecord) : List ApprovalRecord :=
  match r.mandateId with
  | none => r.approvals
  | some id => (s.mandates.get id).elim [] (·.approvals)

/-- The policy in force is satisfied by those approvals whose keys are active. -/
def ReleasedBy (s : SignerState) (approvals : List ApprovalRecord) : Prop :=
  ∃ policy, s.policy = some policy ∧
    approvalsSatisfied policy
      ((approvals.filter fun a => isActiveKey s a.credId).map fun a => ⟨a.person, a.credId⟩)
      (activeKeysByPerson s) = true

/-- The whitelisting of a destination is approved, not closed, and its delay is over. -/
structure Whitelisted (s : SignerState) (network : WalletNetwork) (destination : Text) (now : ℤ)
    (w : IntentRecord) : Prop where
  record : ∃ k, s.intents.get k = some w
  kind : w.intent.kind = .whitelist
  same : w.intent.network = network ∧ w.intent.destination = destination
  approved : w.approvedAt.isSome
  notVetoed : w.vetoed = false
  notCancelled : w.cancelled = false
  active : ∃ t, w.activeFrom = some t ∧ t ≤ now

/-- What holds, at a reading of the clock, of the payout that is signed first. -/
structure FirstSigned (s : SignerState) (now : ℤ) (r : IntentRecord) : Prop where
  notFrozen : s.frozen = none
  payout : r.intent.kind = .payout
  open_ : r.cancelled = false ∧ r.vetoed = false
  released : ReleasedBy s (backing s r)
  mandate : ∀ id, r.mandateId = some id → MandateValid s now id
  window : ∃ t u, r.signableAt = some t ∧ r.signUntil = some u ∧ t ≤ now ∧ now ≤ u
  whitelisted : ∃ w, Whitelisted s r.intent.network r.intent.destination now w

/-! ## The times of a record -/

/-- The times that are set together, and a mandate that is named has a name. -/
structure TimesMatch (r : IntentRecord) : Prop where
  payout : r.signableAt.isSome → r.signUntil.isSome
  address : r.activeFrom.isSome → r.approvedAt.isSome
  named : r.mandateId ≠ some []

theorem TimesMatch.settle {r : IntentRecord} (h : TimesMatch r) (s : SignerState) (t : ℤ) :
    TimesMatch (settle s r t) := by
  cases settles s r t with
  | untouched he =>
    rw [he]
    exact h
  | payout _ _ _ _ he =>
    rw [he]
    exact ⟨fun _ => rfl, fun _ => rfl, h.named⟩
  | whitelist _ _ _ _ he =>
    rw [he]
    exact ⟨h.payout, fun _ => rfl, h.named⟩

theorem timesMatch_new (k text : Text) (i : Intent) (t : ℤ) {mandateId : Option Text}
    (h : mandateId ≠ some []) : TimesMatch (newIntent k text i mandateId t) := by
  refine ⟨fun hs => ?_, fun hs => ?_, h⟩ <;> cases hs

theorem History.timesMatch {P : Platform} {s : SignerState} {es : List Timed}
    (h : History P s es) : ∀ k r, s.intents.get k = some r → TimesMatch r := by
  refine h.induct (I := fun s _ => ∀ k r, s.intents.get k = some r → TimesMatch r) ?_ ?_
  · intro k r hr
    cases hr
  · intro s s' es now e _ ih hadm happly k r hr
    cases intents_of_apply happly hr with
    | kept _ hold => exact ih k r hold
    | created hbody _ =>
      rw [hbody] at hadm
      cases hadm with
      | intent hf =>
        unfold opened
        split
        · exact (timesMatch_new _ _ _ _ hf.named).settle _ _
        · exact timesMatch_new _ _ _ _ hf.named
    | @approved r credId person counter _ hold =>
      have hold := ih k r hold
      have happ : TimesMatch (r.approvedBy credId person e.time) :=
        ⟨hold.payout, hold.address, hold.named⟩
      exact happ.settle _ _
    | cancelled _ hold => exact ⟨(ih k _ hold).payout, (ih k _ hold).address, (ih k _ hold).named⟩
    | vetoed _ hold => exact ⟨(ih k _ hold).payout, (ih k _ hold).address, (ih k _ hold).named⟩
    | signed _ _ hold => exact ⟨(ih k _ hold).payout, (ih k _ hold).address, (ih k _ hold).named⟩

/-! ## The guards -/

theorem released_of_approvalsQuorum {s : SignerState} {approvals : List ApprovalRecord}
    (h : approvalsQuorum s approvals = true) : ReleasedBy s approvals := by
  unfold approvalsQuorum at h
  split at h
  · cases h
  · rename_i policy hp
    exact ⟨policy, hp, h⟩

theorem released_of_quorum {s : SignerState} {r : IntentRecord} (h : quorum s r = true) :
    ReleasedBy s (backing s r) := by
  unfold quorum at h
  unfold backing
  cases hm : r.mandateId with
  | none =>
    rw [hm] at h
    exact released_of_approvalsQuorum h
  | some id =>
    rw [hm] at h
    simp only [Option.any_eq_true] at h
    obtain ⟨m, hget, hq⟩ := h
    simp only [hget, Option.elim_some]
    unfold mandateQuorum at hq
    rw [Bool.and_eq_true] at hq
    exact released_of_approvalsQuorum hq.2

theorem whitelisted_of_active {s : SignerState} {network : WalletNetwork} {destination : Text}
    {now : ℤ} {w : IntentRecord} (h : activeDestination s network destination now = some w)
    (htimes : ∀ k r, s.intents.get k = some r → TimesMatch r) :
    Whitelisted s network destination now w := by
  obtain ⟨k, hk⟩ := s.intents.mem_values.mp (List.mem_of_find?_eq_some h)
  have hact := List.find?_some h
  simp only [activatesDestination, Bool.and_eq_true, decide_eq_true_eq, Bool.not_eq_true',
    Option.any_eq_true] at hact
  obtain ⟨⟨⟨⟨⟨hkind, hnet⟩, hdest⟩, hveto⟩, hcancel⟩, t, ht, hnow⟩ := hact
  exact ⟨⟨k, hk⟩, hkind, ⟨hnet, hdest⟩, (htimes k w hk).address (by rw [ht]; rfl), hveto, hcancel,
    ⟨t, ht, hnow⟩⟩

/-- The guards of the code are those of a first signature. -/
theorem FirstGuards.firstSigned {s : SignerState} {policy : Policy} {r : IntentRecord}
    {i : Payout} {now : ℤ} {d : Signed} (hg : FirstGuards s policy r i now)
    (hfor : SignedFor s d r i)
    (htimes : ∀ k r, s.intents.get k = some r → TimesMatch r) : FirstSigned s now r := by
  obtain ⟨hkind, -, -, -, hnet, hdest⟩ := payoutOf_eq_some hfor.payout
  have hr := htimes _ _ hfor.record
  refine ⟨hfor.notFrozen, hkind, hfor.open_, released_of_quorum hg.quorum, ?_, ?_, ?_⟩
  · intro id hid
    apply hg.mandate
    rw [IntentRecord.namedMandate, hid, Option.filter_some, if_pos]
    rw [decide_eq_true_eq]
    rintro rfl
    exact hr.named hid
  · obtain ⟨t, ht, hle⟩ := hg.signable
    obtain ⟨u, hu⟩ := Option.isSome_iff_exists.mp (hr.payout (by rw [ht]; rfl))
    have huntil := hg.until_
    rw [hu] at huntil
    exact ⟨t, u, ht, hu, hle, huntil⟩
  · obtain ⟨w, hw⟩ := hg.destination
    rw [hnet, hdest]
    exact ⟨w, whitelisted_of_active hw htimes⟩

/-! ## In every run -/

/-- No whitelisting of the destination is left that was not vetoed. -/
def AllVetoed (s : SignerState) (network : WalletNetwork) (destination : Text) : Prop :=
  ∀ k w, s.intents.get k = some w → w.intent.kind = .whitelist → w.intent.network = network →
    w.intent.destination = destination → w.vetoed = true

/-- Every key behind the approvals is revoked. -/
def AllRevoked (s : SignerState) (approvals : List ApprovalRecord) : Prop :=
  ∀ a ∈ approvals, isActiveKey s a.credId = false

theorem FirstSigned.not_allVetoed {s : SignerState} {now : ℤ} {r : IntentRecord}
    (h : FirstSigned s now r) : ¬ AllVetoed s r.intent.network r.intent.destination := by
  intro hall
  obtain ⟨w, ⟨k, hk⟩, hkind, ⟨hnet, hdest⟩, -, hveto, -, -⟩ := h.whitelisted
  rw [hall k w hk hkind hnet hdest] at hveto
  cases hveto

/-- Without a single approval nothing is released. -/
theorem approvalsSatisfied_nil (p : Policy) (activeKeys : Text → ℕ) :
    approvalsSatisfied p [] activeKeys = false := by
  unfold approvalsSatisfied
  cases p.mode <;> simp

theorem FirstSigned.not_allRevoked {s : SignerState} {now : ℤ} {r : IntentRecord}
    (h : FirstSigned s now r) : ¬ AllRevoked s (backing s r) := by
  intro hall
  obtain ⟨policy, -, hsat⟩ := h.released
  have hnone : (backing s r).filter (fun a => isActiveKey s a.credId) = [] := by
    apply List.filter_eq_nil_iff.mpr
    intro a ha
    simp [hall a ha]
  rw [hnone, List.map_nil, approvalsSatisfied_nil] at hsat
  cases hsat

/-- **Every first signature of a run** was given in a state, and at a reading of
the clock between the events before it and its own, in which the payout was
open, released by active keys, within its window and to a destination that was
whitelisted; so not when that was vetoed or when all keys behind it were revoked. -/
theorem first_signature_is_guarded {P : Platform} (hA : AddressShapes P.addresses)
    {as : List Action} {g : Signer} {es : List Timed} (h : Run P as g es) (hc : NonDecreasing as)
    {pre post : List Timed} {e : Timed} {d : Signed} (hes : es = pre ++ e :: post)
    (hbody : e.event.body = .signed d) (hmode : d.mode = .first) :
    ∃ s r, replay P.addresses (events pre) = .ok s ∧ s.intents.get d.intentId = some r ∧
      (∀ x ∈ pre, x.event.time ≤ e.now) ∧ e.now ≤ e.event.time ∧ FirstSigned s e.now r ∧
      ¬ AllVetoed s r.intent.network r.intent.destination ∧ ¬ AllRevoked s (backing s r) := by
  obtain ⟨s, s', hist, hadm, -, -⟩ := (h.reached hA).history.before hes
  have htimely := h.timely hA hc
  rw [hes] at htimely
  have hpre : ∀ x ∈ pre, x.event.time ≤ e.now := by
    intro x hx
    exact (List.pairwise_append.mp htimely.ordered).2.2 x hx e List.mem_cons_self
  have hstamp : e.now ≤ e.event.time :=
    htimely.stamped e (List.mem_append_right _ List.mem_cons_self)
  rw [hbody] at hadm
  cases hadm with
  | first hfor _ _ _ hguards _ =>
    have hsigned := hguards.firstSigned hfor hist.timesMatch
    exact ⟨s, _, hist.replay, hfor.record, hpre, hstamp, hsigned, hsigned.not_allVetoed,
      hsigned.not_allRevoked⟩
  | again _ hagain _ _ _ =>
    rw [hmode] at hagain
    cases hagain

/-- The sample has such a signature. -/
theorem first_signature_of_sample : ∃ pre e post d s r, sample.2 = pre ++ e :: post ∧
    e.event.body = .signed d ∧ replay sampleLib (events pre) = .ok s ∧
    s.intents.get d.intentId = some r ∧ FirstSigned s e.now r := by
  obtain ⟨pre, e1, e2, e3, d1, _, _, hes, h1, -⟩ := sample_end
  obtain ⟨hbody, hmode, -⟩ := signs_eq_some h1
  obtain ⟨s, r, hs, hr, -, -, hsigned, -⟩ := first_signature_is_guarded sampleLib_shapes
    sample_run sample_nonDecreasing hes hbody hmode
  exact ⟨pre, e1, [e2, e3], d1, s, r, hes, hbody, hs, hr, hsigned⟩

end Klick
