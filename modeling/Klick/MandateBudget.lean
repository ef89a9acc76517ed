-- The budget of a mandate. It is checked when a payout is opened, and it is spent
-- when the payout is signed; in between, what is given back can no longer be signed.
import Klick.Payments

open Js

namespace Klick

/-! ## What a mandate covers -/

/-- The payout is one that the mandate is for. -/
structure CoveredBy (m : Mandate) (i : Intent) : Prop where
  payout : i.kind = .payout
  grantee : i.initiator = m.grantee
  network : i.network = m.network
  asset : i.asset = some m.asset
  destination : i.destination ∈ m.destinations
  amount : i.amount.getD 0 ≤ m.perPayout

/-- The payout is signed, or its window is still open at a time. -/
def IntentRecord.Signable (r : IntentRecord) (t : ℤ) : Prop :=
  r.signatures ≠ [] ∨ (r.cancelled = false ∧ r.vetoed = false ∧ t ≤ r.signUntil.getD 0)

instance (r : IntentRecord) (t : ℤ) : Decidable (r.Signable t) := by
  unfold IntentRecord.Signable
  infer_instance

/-- What a payout takes from a mandate, at a time. -/
def IntentRecord.taken (id : Text) (t : ℤ) (r : IntentRecord) : ℕ :=
  if r.mandateId = some id ∧ r.Signable t then r.intent.amount.getD 0 else 0

/-- What a signed payout has taken from a mandate. -/
def IntentRecord.signedOn (id : Text) (r : IntentRecord) : ℕ :=
  if r.mandateId = some id ∧ r.first.isSome then r.intent.amount.getD 0 else 0

/-- A window that was left is not entered again. -/
theorem taken_antitone (id : Text) {t u : ℤ} (h : t ≤ u) (r : IntentRecord) :
    r.taken id u ≤ r.taken id t := by
  unfold IntentRecord.taken
  split_ifs with hu ht
  · exact le_rfl
  · apply absurd _ ht
    refine ⟨hu.1, ?_⟩
    rcases hu.2 with hs | ⟨hc, hv, hle⟩
    · exact .inl hs
    · exact .inr ⟨hc, hv, h.trans hle⟩
  · exact Nat.zero_le _
  · exact le_rfl

theorem signedOn_le_taken (id : Text) (t : ℤ) (r : IntentRecord) :
    r.signedOn id ≤ r.taken id t := by
  unfold IntentRecord.signedOn IntentRecord.taken
  split_ifs with hs ht
  · exact le_rfl
  · apply absurd _ ht
    refine ⟨hs.1, .inl ?_⟩
    intro hnil
    have hfirst := hs.2
    rw [IntentRecord.first, hnil] at hfirst
    cases hfirst
  · exact Nat.zero_le _
  · exact le_rfl

/-- A payout of another mandate takes nothing. -/
theorem taken_of_ne {id : Text} {r : IntentRecord} (h : r.mandateId ≠ some id) (t : ℤ) :
    r.taken id t = 0 := if_neg fun hc => h hc.1

/-! ## The invariant of a payout on a mandate -/

/-- The mandate is there, covers the payout, had begun when it was opened, and has approved it. -/
structure Granted (s : SignerState) (r : IntentRecord) (id : Text) : Prop where
  named : id ≠ []
  mandate : ∃ m, s.mandates.get id = some m ∧ CoveredBy m.mandate r.intent ∧
    m.mandate.validFrom ≤ r.createdAt
  settled : r.approvedAt.isSome

/-- A mandate that is there keeps its terms. -/
theorem mandate_stays {P : Platform} {s s' : SignerState} {now : ℤ} {e : SignerEvent}
    (hadm : Admitted P s now e.body) (happly : apply P.addresses s e = .ok s') {id : Text}
    {m : MandateRecord} (hm : s.mandates.get id = some m) :
    ∃ m', s'.mandates.get id = some m' ∧ m'.mandate = m.mandate := by
  obtain ⟨n, t, body⟩ := e
  have hmod : ∀ (k : Text) (f : MandateRecord → MandateRecord), (∀ m, (f m).mandate = m.mandate) →
      ∃ m', (s.mandates.modify k f).get id = some m' ∧ m'.mandate = m.mandate := by
    intro k f hf
    rw [OrderedMap.get_modify]
    by_cases hk : id = k
    · rw [if_pos hk, ← hk, hm]
      exact ⟨_, rfl, hf m⟩
    · rw [if_neg hk]
      exact ⟨m, hm, rfl⟩
  cases body with
  | intent intentId text mandateId =>
    obtain ⟨i, -, hs⟩ := bind_eq_ok.mp happly
    obtain rfl := Except.ok.inj hs
    exact ⟨m, hm, rfl⟩
  | mandate mandateId text =>
    simp only [apply] at happly
    split at happly
    · obtain rfl := Except.ok.inj happly
      exact ⟨m, hm, rfl⟩
    · obtain rfl := Except.ok.inj happly
      refine ⟨m, ?_, rfl⟩
      -- a new mandate has a new id
      cases hadm with
      | mandate _ hnone =>
        rw [OrderedMap.get_set_of_ne, hm]
        rintro rfl
        rw [hnone] at hm
        cases hm
  | mandateApproval =>
    obtain rfl := Except.ok.inj happly
    exact hmod _ _ fun m => (approve_same _ _ m).2.1
  | mandateRevoked =>
    obtain rfl := Except.ok.inj happly
    exact hmod _ _ fun _ => rfl
  | _ =>
    obtain rfl := Except.ok.inj happly
    exact ⟨m, hm, rfl⟩

theorem Granted.of_mandates {s s' : SignerState} {r r' : IntentRecord} {id : Text}
    (h : Granted s r id) (hintent : r'.intent = r.intent) (hcreated : r'.createdAt = r.createdAt)
    (happroved : r'.approvedAt = r.approvedAt)
    (hm : ∀ m, s.mandates.get id = some m →
      ∃ m', s'.mandates.get id = some m' ∧ m'.mandate = m.mandate) : Granted s' r' id := by
  obtain ⟨hnamed, ⟨m, hget, hcovered, hfrom⟩, hsettled⟩ := h
  obtain ⟨m', hget', hsame⟩ := hm m hget
  refine ⟨hnamed, ⟨m', hget', ?_, ?_⟩, ?_⟩
  · rw [hsame, hintent]
    exact hcovered
  · rw [hsame, hcreated]
    exact hfrom
  · rw [happroved]
    exact hsettled

/-- A payout that is opened on a mandate is approved at once, and covered. -/
theorem IntentFacts.granted {P : Platform} (hA : AddressShapes P.addresses) {s : SignerState}
    {now t : ℤ} {k text id : Text} {i i' : Intent} (h : IntentFacts P s now k text (some id) i)
    (hparse : parseIntent P.addresses text = .ok i') (ht : now ≤ t) :
    Granted s (opened s (newIntent k text i' (some id) t) t) id ∧
      ∃ m, s.mandates.get id = some m ∧
        mandateUsed s id now + i'.amount.getD 0 ≤ m.mandate.total := by
  have hsame : i' = i := by
    obtain ⟨hv, htext⟩ := encodeIntent_eq_ok.mp h.encoded
    have hp := (parseIntent_eq_ok hA).mpr ⟨hv, h.fits, htext⟩
    rw [hparse] at hp
    exact Except.ok.inj hp
  subst hsame
  have hkind : i'.kind = .payout := by
    cases hk : i'.kind with
    | payout => rfl
    | whitelist => cases h.whitelist hk
  have hne : id ≠ [] := by
    rintro rfl
    exact h.named rfl
  obtain ⟨p, hp, -, -, hmandate⟩ := h.payout hkind
  obtain ⟨m, hm, hquorum, hcovers⟩ := hmandate id rfl
  obtain ⟨-, -, hasset, hamount, hnet, hdest⟩ := payoutOf_eq_some hp
  obtain ⟨hg, hn, hc, hd, hfrom, -, hper, htotal⟩ := mandateCovers_eq_ok.mp hcovers
  have hopened : opened s (newIntent k text i' (some id) t) t =
      settle s (newIntent k text i' (some id) t) t := by
    unfold opened
    rw [if_pos]
    simpa [newIntent] using hne
  have hq : quorum s (newIntent k text i' (some id) t) = true := by
    simp [quorum, newIntent, hm, hquorum]
  obtain ⟨policy, hpolicy⟩ : ∃ policy, s.policy = some policy := by
    unfold mandateQuorum approvalsQuorum at hquorum
    cases hpol : s.policy with
    | none => simp [hpol] at hquorum
    | some policy => exact ⟨policy, rfl⟩
  have hkept := settle_same s (newIntent k text i' (some id) t) t
  rw [hopened]
  refine ⟨⟨hne, ⟨m, hm, ?_, ?_⟩, ?_⟩, m, hm, ?_⟩
  · rw [hkept.intent]
    refine ⟨hkind, hg, hnet.trans hn, ?_, ?_, ?_⟩
    · rw [show (newIntent k text i' (some id) t).intent.asset = i'.asset from rfl, hasset, ← hc]
    · rw [show (newIntent k text i' (some id) t).intent.destination = i'.destination from rfl, hdest]
      exact hd
    · rw [show (newIntent k text i' (some id) t).intent.amount = i'.amount from rfl, hamount]
      exact hper
  · rw [hkept.createdAt]
    exact hfrom.trans ht
  · simp [settle, newIntent, hpolicy, hkind] at hq ⊢
    rw [if_pos hq]
    rfl
  · rw [hamount]
    exact htotal

/-! ## The invariant of the budgets -/

/-- The first signature of a payout is in the journal, at a reading within its mandate. -/
def SignedInTime (es : List Timed) (m : Mandate) (x : Signature) : Prop :=
  ∃ e ∈ es, e.event = ⟨x.seq, x.time, .signed x.signed⟩ ∧ m.validFrom ≤ e.now ∧
    e.now < m.validUntil ∧ e.now ≤ x.time

structure Budgets (s : SignerState) (es : List Timed) : Prop where
  granted : ∀ k r id, s.intents.get k = some r → r.mandateId = some id → Granted s r id
  open_ : ∀ k r, s.intents.get k = some r → r.signatures ≠ [] →
    r.cancelled = false ∧ r.vetoed = false
  created : ∀ k r, s.intents.get k = some r → ∃ e ∈ es, r.createdAt = e.event.time
  total : ∀ id m, s.mandates.get id = some m → ∀ t, (∀ e ∈ es, e.event.time ≤ t) →
    s.intents.sum (·.taken id t) ≤ m.mandate.total
  notSelf : ∀ id m, s.mandates.get id = some m → ∀ a ∈ m.approvals, a.person ≠ m.mandate.grantee
  inTime : ∀ k r id m x, s.intents.get k = some r → r.mandateId = some id →
    s.mandates.get id = some m → r.first = some x → SignedInTime es m.mandate x

/-- What the state counts as used has every payout in it that can still be signed. -/
theorem Budgets.taken_le_used {s : SignerState} {es : List Timed} (h : Budgets s es) (id : Text)
    (now : ℤ) : s.intents.sum (·.taken id now) ≤ mandateUsed s id now := by
  apply OrderedMap.sum_le_sum
  intro k
  unfold OrderedMap.weightAt
  cases hr : s.intents.get k with
  | none => exact le_rfl
  | some r =>
    simp only [Option.elim_some, IntentRecord.taken]
    by_cases ht : r.mandateId = some id ∧ r.Signable now
    · obtain ⟨hid, hsignable⟩ := ht
      obtain ⟨-, ⟨m, -, hcovered, -⟩, hsettled⟩ := h.granted k r id hr hid
      obtain ⟨a, ha⟩ := Option.isSome_iff_exists.mp hsettled
      have hcounts : countsInMandate id now r = true := by
        rcases hsignable with hs | ⟨hc, hv, hle⟩
        · obtain ⟨hc, hv⟩ := h.open_ k r hr hs
          simp [countsInMandate, hid, hc, hv, hs]
        · by_cases hs : r.signatures = []
          · simp [countsInMandate, isOpen, hid, hc, hv, hs, hcovered.payout, ha, hle]
          · simp [countsInMandate, hid, hc, hv, hs]
      rw [if_pos ⟨hid, hsignable⟩, if_pos hcounts]
    · rw [if_neg ht]
      exact Nat.zero_le _

/-- An intent that an approval is recorded for names no mandate. -/
theorem approved_without_mandate {P : Platform} {s : SignerState} {now : ℤ} {k credId person : Text}
    {counter : ℕ} (hadm : Admitted P s now (.approval k credId person counter)) {r : IntentRecord}
    (hr : s.intents.get k = some r) : r.mandateId = none := by
  generalize hkey : EventBody.approval k credId person counter = body at hadm
  cases hadm with
  | @approval q _ _ _ _ _ _ hq _ _ _ hmandate _ _ _ _ =>
    obtain ⟨rfl, -, -, -⟩ := EventBody.approval.inj hkey
    rw [hr] at hq
    rw [Option.some.inj hq]
    exact hmandate
  | _ => cases hkey

/-- An intent that is cancelled is not signed. -/
theorem cancelled_unsigned {P : Platform} {s : SignerState} {now : ℤ} {k : Text} {origin : By}
    (hadm : Admitted P s now (.cancel k origin)) {r : IntentRecord}
    (hr : s.intents.get k = some r) : r.signatures = [] := by
  generalize hkey : EventBody.cancel k origin = body at hadm
  cases hadm with
  | @cancel q _ hq hsigs =>
    obtain ⟨rfl, -⟩ := EventBody.cancel.inj hkey
    rw [hr] at hq
    rw [Option.some.inj hq]
    exact hsigs
  | _ => cases hkey

/-- An intent that is vetoed is an address. -/
theorem vetoed_whitelist {P : Platform} {s : SignerState} {now : ℤ} {k : Text}
    (hadm : Admitted P s now (.veto k)) {r : IntentRecord} (hr : s.intents.get k = some r) :
    r.intent.kind = .whitelist := by
  generalize hkey : EventBody.veto k = body at hadm
  cases hadm with
  | @veto q hq hkind =>
    obtain rfl := EventBody.veto.inj hkey
    rw [hr] at hq
    rw [Option.some.inj hq]
    exact hkind
  | _ => cases hkey

/-- What an intent takes after an event is what it took before, or less, if it was there. -/
theorem taken_of_change {P : Platform} {s : SignerState} {now : ℤ} {e : SignerEvent}
    (hadm : Admitted P s now e.body) {k : Text} {r : IntentRecord}
    (hr : IntentChange P.addresses s e k r) (hopens : e.body.opens? ≠ some k) (id : Text) {t : ℤ}
    (ht : now ≤ t) :
    ∃ r0, s.intents.get k = some r0 ∧ r.taken id t ≤ r0.taken id now := by
  cases hr with
  | kept _ hold => exact ⟨r, hold, taken_antitone id ht r⟩
  | created hbody _ =>
    rw [hbody] at hopens
    exact absurd rfl hopens
  | @approved r0 credId person counter hbody hold =>
    refine ⟨r0, hold, ?_⟩
    -- a payout on a mandate takes no approval
    rw [hbody] at hadm
    have hnone := approved_without_mandate hadm hold
    have hkept := settle_same (s.counted credId counter) (r0.approvedBy credId person e.time) e.time
    rw [taken_of_ne]
    · exact Nat.zero_le _
    · rw [hkept.mandateId]
      simp [IntentRecord.approvedBy, hnone]
  | @cancelled r0 origin hbody hold =>
    refine ⟨r0, hold, ?_⟩
    rw [hbody] at hadm
    have hunsigned := cancelled_unsigned hadm hold
    simp [IntentRecord.taken, IntentRecord.Signable, hunsigned]
  | @vetoed r0 _ hold =>
    refine ⟨r0, hold, ?_⟩
    refine le_trans ?_ (taken_antitone id ht r0)
    by_cases hs : r0.signatures = []
    · simp [IntentRecord.taken, IntentRecord.Signable, hs]
    · simp [IntentRecord.taken, IntentRecord.Signable, hs]
  | @signed r0 d hbody hid hold =>
    refine ⟨r0, hold, ?_⟩
    have hsignable : r0.Signable now := by
      rw [hbody] at hadm
      subst hid
      cases hadm with
      | first hfor _ _ _ hguards _ =>
        have hq := hfor.record
        rw [hold] at hq
        obtain rfl := Option.some.inj hq
        exact .inr ⟨hfor.open_.1, hfor.open_.2, hguards.until_⟩
      | again hfor _ hfirst _ _ =>
        have hq := hfor.record
        rw [hold] at hq
        obtain rfl := Option.some.inj hq
        left
        intro hnil
        rw [IntentRecord.first, hnil] at hfirst
        cases hfirst
    unfold IntentRecord.taken
    by_cases hm : r0.mandateId = some id
    · rw [if_pos (show r0.mandateId = some id ∧ r0.Signable now from ⟨hm, hsignable⟩)]
      split_ifs
      · exact le_rfl
      · exact Nat.zero_le _
    · rw [if_neg fun hc => hm hc.1]
      exact Nat.zero_le _

/-- What a mandate that is there has approved keeps its mandate. -/
theorem Budgets.granted_step {P : Platform} (hA : AddressShapes P.addresses)
    {s s' : SignerState} {es : List Timed} (h : Budgets s es) {now : ℤ} {e : SignerEvent}
    (hadm : Admitted P s now e.body) (happly : apply P.addresses s e = .ok s')
    (hstamp : now ≤ e.time) {k : Text} {r : IntentRecord} {id : Text}
    (hr : s'.intents.get k = some r) (hid : r.mandateId = some id) : Granted s' r id := by
  have hstays : ∀ m, s.mandates.get id = some m →
      ∃ m', s'.mandates.get id = some m' ∧ m'.mandate = m.mandate :=
    fun _ hm => mandate_stays hadm happly hm
  cases intents_of_apply happly hr with
  | kept _ hold => exact (h.granted k r id hold hid).of_mandates rfl rfl rfl hstays
  | created hbody hparse =>
    rw [(opened_same _ _ _).mandateId] at hid
    obtain rfl : _ = some id := hid
    rw [hbody] at hadm
    cases hadm with
    | intent hfacts =>
      exact (hfacts.granted hA hparse hstamp).1.of_mandates rfl rfl rfl hstays
  | @approved r0 credId person counter hbody hold =>
    rw [hbody] at hadm
    rw [(settle_same _ _ _).mandateId] at hid
    have hnone := approved_without_mandate hadm hold
    rw [IntentRecord.approvedBy, hnone] at hid
    cases hid
  | cancelled _ hold | vetoed _ hold | signed _ _ hold =>
    exact (h.granted k _ id hold hid).of_mandates rfl rfl rfl hstays

/-- A signed payout is not closed later. -/
theorem Budgets.open_step {P : Platform} {s s' : SignerState} {es : List Timed}
    (h : Budgets s es) (hspending : Spending s es) {now : ℤ} {e : SignerEvent}
    (hadm : Admitted P s now e.body) (happly : apply P.addresses s e = .ok s') {k : Text}
    {r : IntentRecord} (hr : s'.intents.get k = some r) (hsigs : r.signatures ≠ []) :
    r.cancelled = false ∧ r.vetoed = false := by
  cases intents_of_apply happly hr with
  | kept _ hold => exact h.open_ k r hold hsigs
  | created _ _ =>
    rw [(opened_same _ _ _).signatures] at hsigs
    exact absurd rfl hsigs
  | @approved r0 credId person counter _ hold =>
    have hkept := settle_same (s.counted credId counter) (r0.approvedBy credId person e.time) e.time
    rw [hkept.signatures] at hsigs
    rw [hkept.cancelled, hkept.vetoed]
    exact h.open_ k r0 hold hsigs
  | cancelled hbody hold =>
    rw [hbody] at hadm
    exact absurd (cancelled_unsigned hadm hold) hsigs
  | @vetoed r0 hbody hold =>
    rw [hbody] at hadm
    have hkind := vetoed_whitelist hadm hold
    -- what is signed is a payout
    obtain ⟨x, hx⟩ := List.exists_mem_of_ne_nil _ hsigs
    obtain ⟨i, hi, -⟩ := (hspending.good k r0 hold).ofIntent x hx
    rw [(payoutOf_eq_some hi).1] at hkind
    cases hkind
  | @signed r0 d hbody hid hold =>
    rw [hbody] at hadm
    subst hid
    have hfor : ∃ i, SignedFor s d r0 i := by
      cases hadm with
      | first hfor | again hfor =>
        have hq := hfor.record
        rw [hold] at hq
        obtain rfl := Option.some.inj hq
        exact ⟨_, hfor⟩
    obtain ⟨i, hfor⟩ := hfor
    exact hfor.open_

theorem Budgets.created_step {P : Platform} {s s' : SignerState} {es : List Timed}
    (h : Budgets s es) {now : ℤ} {e : SignerEvent} (happly : apply P.addresses s e = .ok s')
    {k : Text} {r : IntentRecord} (hr : s'.intents.get k = some r) :
    ∃ x ∈ es ++ [⟨now, e⟩], r.createdAt = x.event.time := by
  have hold : ∀ r0, s.intents.get k = some r0 → r.createdAt = r0.createdAt →
      ∃ x ∈ es ++ [⟨now, e⟩], r.createdAt = x.event.time := by
    intro r0 hr0 hsame
    obtain ⟨x, hx, htime⟩ := h.created k r0 hr0
    exact ⟨x, List.mem_append_left _ hx, hsame.trans htime⟩
  cases intents_of_apply happly hr with
  | kept _ hr0 => exact hold r hr0 rfl
  | created _ _ =>
    refine ⟨⟨now, e⟩, List.mem_append_right _ List.mem_cons_self, ?_⟩
    exact (opened_same _ _ _).createdAt
  | @approved r0 _ _ _ _ hr0 => exact hold r0 hr0 (settle_same _ _ _).createdAt
  | @cancelled r0 _ _ hr0 => exact hold r0 hr0 rfl
  | @vetoed r0 _ hr0 => exact hold r0 hr0 rfl
  | @signed r0 _ _ _ hr0 => exact hold r0 hr0 rfl

/-- The grantee is never among those who approve a mandate. -/
theorem Budgets.notSelf_step {P : Platform} {s s' : SignerState} {es : List Timed}
    (h : Budgets s es) {now : ℤ} {e : SignerEvent} (hadm : Admitted P s now e.body)
    (happly : apply P.addresses s e = .ok s') {id : Text} {m : MandateRecord}
    (hm : s'.mandates.get id = some m) : ∀ a ∈ m.approvals, a.person ≠ m.mandate.grantee := by
  cases mandates_of_apply happly hm with
  | kept _ hold | unread _ hold => exact h.notSelf id m hold
  | created _ _ => nofun
  | @revoked m0 _ _ hold => exact h.notSelf id m0 hold
  | @approved m0 credId person counter hbody hold =>
    obtain ⟨-, hmandate, -, -, happrovals⟩ :=
      approve_same (s.counted credId counter) ⟨credId, person, e.time⟩ m0
    rw [hmandate, happrovals]
    intro a ha
    rcases List.mem_append.mp ha with ha | ha
    · exact h.notSelf id m0 hold a ha
    · rw [List.mem_singleton.mp ha]
      rw [hbody] at hadm
      generalize hkey : EventBody.mandateApproval id credId person counter = body at hadm
      cases hadm with
      | @mandateApproval q _ _ _ _ _ _ hq _ _ _ hne _ _ =>
        obtain ⟨rfl, -, rfl, -⟩ := EventBody.mandateApproval.inj hkey
        rw [hold] at hq
        rw [Option.some.inj hq]
        exact hne
      | _ => cases hkey

/-- A payout is signed first while its mandate is in force. -/
theorem Budgets.inTime_step {P : Platform} {s s' : SignerState} {es : List Timed}
    (h : Budgets s es) {now : ℤ} {e : SignerEvent} (hadm : Admitted P s now e.body)
    (happly : apply P.addresses s e = .ok s') (hbefore : ∀ x ∈ es, x.event.time ≤ now)
    (hstamp : now ≤ e.time) {k id : Text} {r : IntentRecord} {m : MandateRecord} {x : Signature}
    (hr : s'.intents.get k = some r) (hid : r.mandateId = some id)
    (hm : s'.mandates.get id = some m) (hx : r.first = some x) :
    SignedInTime (es ++ [⟨now, e⟩]) m.mandate x := by
  -- a payout that was there has its mandate, with the same terms
  have hterms : ∀ r0, s.intents.get k = some r0 → r0.mandateId = some id →
      ∃ m0, s.mandates.get id = some m0 ∧ m.mandate = m0.mandate ∧
        m0.mandate.validFrom ≤ r0.createdAt := by
    intro r0 hr0 hid0
    obtain ⟨-, ⟨m0, hm0, -, hfrom⟩, -⟩ := h.granted k r0 id hr0 hid0
    obtain ⟨m', hm', hsame⟩ := mandate_stays hadm happly hm0
    rw [hm] at hm'
    obtain rfl := Option.some.inj hm'
    exact ⟨m0, hm0, hsame, hfrom⟩
  have hkept : ∀ r0, s.intents.get k = some r0 → r0.mandateId = some id → r0.first = some x →
      SignedInTime (es ++ [⟨now, e⟩]) m.mandate x := by
    intro r0 hr0 hid0 hfirst
    obtain ⟨m0, hm0, hsame, -⟩ := hterms r0 hr0 hid0
    rw [hsame]
    obtain ⟨y, hy, hevent, htimes⟩ := h.inTime k r0 id m0 x hr0 hid0 hm0 hfirst
    exact ⟨y, List.mem_append_left _ hy, hevent, htimes⟩
  cases intents_of_apply happly hr with
  | kept _ hold => exact hkept r hold hid hx
  | created _ _ =>
    rw [IntentRecord.first, (opened_same _ _ _).signatures] at hx
    cases hx
  | @approved r0 credId person counter _ hold =>
    have hsame := settle_same (s.counted credId counter) (r0.approvedBy credId person e.time) e.time
    rw [IntentRecord.first, hsame.signatures] at hx
    rw [hsame.mandateId] at hid
    exact hkept r0 hold hid hx
  | @cancelled r0 _ _ hold => exact hkept r0 hold hid hx
  | @vetoed r0 _ hold => exact hkept r0 hold hid hx
  | @signed r0 d hbody hk hold =>
    have hevent : e = ⟨e.seq, e.time, .signed d⟩ := by
      rw [← hbody]
    rw [hbody] at hadm
    subst hk
    cases hadm with
    | again hfor _ hfirst _ _ =>
      have hq := hfor.record
      rw [hold] at hq
      obtain rfl := Option.some.inj hq
      rw [first_signedBy hfirst] at hx
      exact hkept r0 hold hid hx
    | first hfor _ hnone hmode hguards _ =>
      have hq := hfor.record
      rw [hold] at hq
      obtain rfl := Option.some.inj hq
      obtain rfl : (⟨e.seq, e.time, d⟩ : Signature) = x := by
        rw [IntentRecord.first, IntentRecord.signedBy, hnone, List.nil_append,
          List.find?_cons_of_pos (by rw [hmode]; rfl)] at hx
        exact Option.some.inj hx
      obtain ⟨m0, hm0, hsame, hfrom⟩ := hterms r0 hold hid
      obtain ⟨y, hy, hcreated⟩ := h.created _ r0 hold
      have hnamed : r0.namedMandate = some id := by
        have hid0 : r0.mandateId = some id := hid
        rw [IntentRecord.namedMandate, hid0, Option.filter_some,
          if_pos (by simpa using (h.granted _ r0 id hold hid0).named)]
      obtain ⟨m1, hm1, -, huntil⟩ := hguards.mandate id hnamed
      rw [hm0] at hm1
      obtain rfl := Option.some.inj hm1
      refine ⟨⟨now, e⟩, List.mem_append_right _ List.mem_cons_self, hevent, ?_, ?_, hstamp⟩
      · rw [hsame]
        calc m0.mandate.validFrom ≤ r0.createdAt := hfrom
          _ = y.event.time := hcreated
          _ ≤ now := hbefore y hy
      · rw [hsame]
        exact huntil

/-- Nothing is taken from a mandate that is not there. -/
theorem Budgets.taken_of_none {s : SignerState} {es : List Timed} (h : Budgets s es) {id : Text}
    (hm : s.mandates.get id = none) (t : ℤ) : s.intents.sum (·.taken id t) = 0 := by
  have hzero : s.intents.sum (·.taken id t) ≤
      (OrderedMap.empty : OrderedMap Text IntentRecord).sum (·.taken id t) := by
    apply OrderedMap.sum_le_sum
    intro k
    rw [OrderedMap.weightAt]
    cases hr : s.intents.get k with
    | none => exact le_rfl
    | some r =>
      rw [Option.elim_some, taken_of_ne]
      · exact Nat.zero_le _
      · intro hid
        obtain ⟨-, ⟨m, hm', -⟩, -⟩ := h.granted k r id hr hid
        rw [hm] at hm'
        cases hm'
  exact Nat.le_zero.mp hzero

/-- An event that opens no payout on a mandate takes nothing from it. -/
theorem sum_taken_of_change {P : Platform} {s s' : SignerState} {now : ℤ} {e : SignerEvent}
    (hadm : Admitted P s now e.body) (happly : apply P.addresses s e = .ok s') (id : Text)
    (hopens : ∀ k text, e.body ≠ .intent k text (some id)) {t : ℤ} (ht : now ≤ t) :
    s'.intents.sum (·.taken id t) ≤ s.intents.sum (·.taken id now) := by
  apply OrderedMap.sum_le_sum
  intro k
  rw [OrderedMap.weightAt]
  cases hr : s'.intents.get k with
  | none => exact Nat.zero_le _
  | some r =>
    by_cases hk : e.body.opens? = some k
    · cases hb : e.body with
      | intent intentId text mandateId =>
        rw [hb] at hk
        obtain rfl := Option.some.inj hk
        obtain ⟨i, -, hnew⟩ := opened_of_apply happly hb
        rw [hr] at hnew
        obtain rfl := Option.some.inj hnew
        have hne : (opened s (newIntent intentId text i mandateId e.time) e.time).mandateId ≠
            some id := by
          rw [(opened_same _ _ _).mandateId]
          intro hid
          obtain rfl : mandateId = some id := hid
          exact hopens _ _ hb
        rw [Option.elim_some, taken_of_ne hne]
        exact Nat.zero_le _
      | _ =>
        rw [hb] at hk
        cases hk
    · obtain ⟨r0, hr0, hle⟩ := taken_of_change hadm (intents_of_apply happly hr) hk id ht
      rw [OrderedMap.weightAt, hr0]
      exact hle

/-- A payout that is opened on a mandate is within what the mandate has left. -/
theorem Budgets.opened_total {P : Platform} (hA : AddressShapes P.addresses) {s s' : SignerState}
    {es : List Timed} (h : Budgets s es) {now t : ℤ} {e : SignerEvent} {k text id : Text}
    (hbody : e.body = .intent k text (some id)) (hadm : Admitted P s now e.body)
    (happly : apply P.addresses s e = .ok s') (hstamp : now ≤ e.time) (ht : e.time ≤ t)
    {m : MandateRecord} (hm : s.mandates.get id = some m) :
    s'.intents.sum (·.taken id t) ≤ m.mandate.total := by
  have hoff : ∀ j ≠ k, s'.intents.weightAt (·.taken id t) j =
      s.intents.weightAt (·.taken id t) j := by
    intro j hj
    rw [OrderedMap.weightAt, OrderedMap.weightAt, intents_elsewhere happly]
    rw [hbody]
    exact fun hc => hj (Option.some.inj hc).symm
  have hstep := OrderedMap.sum_step hoff
  have hold : s.intents.sum (·.taken id t) ≤ mandateUsed s id now := by
    refine le_trans ?_ (h.taken_le_used id now)
    apply OrderedMap.sum_le_sum
    intro j
    rw [OrderedMap.weightAt, OrderedMap.weightAt]
    cases s.intents.get j with
    | none => exact le_rfl
    | some r => exact taken_antitone id (hstamp.trans ht) r
  have hnew : ∃ amount, s'.intents.weightAt (·.taken id t) k ≤ amount ∧
      mandateUsed s id now + amount ≤ m.mandate.total := by
    obtain ⟨i, hi, hr⟩ := opened_of_apply happly hbody
    rw [hbody] at hadm
    cases hadm with
    | intent hfacts =>
      obtain ⟨-, m', hm', htotal⟩ := hfacts.granted hA hi hstamp
      rw [hm] at hm'
      obtain rfl := Option.some.inj hm'
      refine ⟨i.amount.getD 0, ?_, htotal⟩
      rw [OrderedMap.weightAt, hr, Option.elim_some, IntentRecord.taken,
        (opened_same _ _ _).intent]
      split_ifs
      · exact le_rfl
      · exact Nat.zero_le _
  obtain ⟨amount, hle, htotal⟩ := hnew
  omega

theorem Budgets.total_step {P : Platform} (hA : AddressShapes P.addresses) {s s' : SignerState}
    {es : List Timed} (h : Budgets s es) {now t : ℤ} {e : SignerEvent}
    (hadm : Admitted P s now e.body) (happly : apply P.addresses s e = .ok s')
    (hbefore : ∀ x ∈ es, x.event.time ≤ now) (hstamp : now ≤ e.time) (ht : e.time ≤ t) {id : Text}
    {m : MandateRecord} (hm : s'.mandates.get id = some m) :
    s'.intents.sum (·.taken id t) ≤ m.mandate.total := by
  -- a mandate that was there, with the same terms
  have hwas : ∀ m0, s.mandates.get id = some m0 → m.mandate = m0.mandate →
      s'.intents.sum (·.taken id t) ≤ m.mandate.total := by
    intro m0 hm0 hsame
    rw [hsame]
    by_cases hopens : ∃ k text, e.body = .intent k text (some id)
    · obtain ⟨k, text, hbody⟩ := hopens
      exact h.opened_total hA hbody hadm happly hstamp ht hm0
    · have hle := sum_taken_of_change hadm happly id (fun k text hb => hopens ⟨k, text, hb⟩)
        (hstamp.trans ht)
      exact hle.trans (h.total id m0 hm0 now hbefore)
  cases mandates_of_apply happly hm with
  | kept _ hold | unread _ hold => exact hwas m hold rfl
  | @approved m0 credId person counter _ hold =>
    exact hwas m0 hold (approve_same (s.counted credId counter) ⟨credId, person, e.time⟩ m0).2.1
  | @revoked m0 _ _ hold => exact hwas m0 hold rfl
  | @created text m1 hbody hparse =>
    have hnone : s.mandates.get id = none := by
      rw [hbody] at hadm
      generalize hkey : EventBody.mandate id text = body at hadm
      cases hadm with
      | mandate _ hnone =>
        obtain ⟨rfl, -⟩ := EventBody.mandate.inj hkey
        exact hnone
      | _ => cases hkey
    have hle := sum_taken_of_change hadm happly id (by rw [hbody]; nofun) (hstamp.trans ht)
    rw [h.taken_of_none hnone] at hle
    exact hle.trans (Nat.zero_le _)

/-- The budgets hold after every history whose clock does not go back. -/
theorem History.budgets {P : Platform} (hA : AddressShapes P.addresses) {s : SignerState}
    {es : List Timed} (h : History P s es) (ht : Timely es) : Budgets s es := by
  revert ht
  apply History.induct _ _ h
  · intro _
    refine ⟨?_, ?_, ?_, ?_, ?_, ?_⟩
    · intro k r id hr
      cases hr
    · intro k r hr
      cases hr
    · intro k r hr
      cases hr
    · intro id m hm
      cases hm
    · intro id m hm
      cases hm
    · intro k r id m x hr
      cases hr
  · intro s s' es now e hist ih hadm happly ht
    obtain ⟨hstamped, hordered⟩ := ht
    obtain ⟨hpre, -, hlast⟩ := List.pairwise_append.mp hordered
    have hbefore : ∀ x ∈ es, x.event.time ≤ now := fun x hx => hlast x hx _ List.mem_cons_self
    have hstamp : now ≤ e.time := hstamped ⟨now, e⟩ (List.mem_append_right _ List.mem_cons_self)
    have hb := ih ⟨fun x hx => hstamped x (List.mem_append_left _ hx), hpre⟩
    refine ⟨?_, ?_, ?_, ?_, ?_, ?_⟩
    · intro k r id hr hid
      exact hb.granted_step hA hadm happly hstamp hr hid
    · intro k r hr hsigs
      exact hb.open_step hist.spending hadm happly hr hsigs
    · intro k r hr
      exact hb.created_step happly hr
    · intro id m hm t ht
      have hle := ht ⟨now, e⟩ (List.mem_append_right _ List.mem_cons_self)
      exact hb.total_step hA hadm happly hbefore hstamp hle hm
    · intro id m hm
      exact hb.notSelf_step hadm happly hm
    · intro k r id m x hr hid hm hx
      exact hb.inTime_step hadm happly hbefore hstamp hr hid hm hx

/-! ## In every run -/

/-- **The cap of a mandate.** In every run with a clock that does not go back, what
is signed on a mandate is within its total; every payout that is signed is one
it covers, and its first signature was checked while the mandate was in force. The
grantee is never among those who approve it. -/
theorem signed_within_mandate {P : Platform} (hA : AddressShapes P.addresses) {as : List Action}
    {g : Signer} {es : List Timed} (h : Run P as g es) (hc : NonDecreasing as) {id : Text}
    {m : MandateRecord} (hm : g.state.mandates.get id = some m) :
    g.state.intents.sum (·.signedOn id) ≤ m.mandate.total ∧
    (∀ k r x, g.state.intents.get k = some r → r.mandateId = some id → r.first = some x →
      CoveredBy m.mandate r.intent ∧ SignedInTime es m.mandate x) ∧
    ∀ a ∈ m.approvals, a.person ≠ m.mandate.grantee := by
  have hb := (h.reached hA).history.budgets hA (h.timely hA hc)
  refine ⟨?_, ?_, hb.notSelf id m hm⟩
  · -- a time after all events
    obtain ⟨t, ht⟩ : ∃ t : ℤ, ∀ e ∈ es, e.event.time ≤ t := by
      refine ⟨(es.map (·.event.time)).foldr max 0, ?_⟩
      intro e he
      exact List.le_max_of_le' 0 (List.mem_map_of_mem he) le_rfl
    refine le_trans ?_ (hb.total id m hm t ht)
    apply OrderedMap.sum_le_sum
    intro k
    rw [OrderedMap.weightAt, OrderedMap.weightAt]
    cases g.state.intents.get k with
    | none => exact le_rfl
    | some r => exact signedOn_le_taken id t r
  · intro k r x hr hid hx
    refine ⟨?_, hb.inTime k r id m x hr hid hm hx⟩
    obtain ⟨-, ⟨m', hm', hcovered, -⟩, -⟩ := hb.granted k r id hr hid
    rw [hm] at hm'
    rw [Option.some.inj hm']
    exact hcovered

/-- The mandate of the sample is spent, and not more. -/
theorem sample_mandate : ∃ id m, sample.1.state.mandates.get id = some m ∧
    sample.1.state.intents.sum (·.signedOn id) ≤ m.mandate.total ∧
    ∀ a ∈ m.approvals, a.person ≠ m.mandate.grantee := by
  obtain ⟨pre, e1, e2, e3, d1, d3, s, -, -, -, hend, -⟩ := sample_end
  obtain ⟨-, -, id, -, m, hm, -⟩ := signedAtEnd_eq_true hend
  obtain ⟨hsum, -, hself⟩ := signed_within_mandate sampleLib_shapes sample_run
    sample_nonDecreasing hm
  exact ⟨id, m, hm, hsum, hself⟩

/-- The stamp of a first signature may lie behind the mandate that it was checked against. -/
theorem a_stamp_may_lie_behind_the_mandate :
    ¬ ∀ as g es, Run samplePlatform as g es → NonDecreasing as → ∀ id m k r x,
      g.state.mandates.get id = some m → g.state.intents.get k = some r → r.mandateId = some id →
      r.first = some x → m.mandate.validFrom ≤ x.time ∧ x.time < m.mandate.validUntil := by
  intro h
  obtain ⟨pre, e1, e2, e3, d1, d3, s, -, -, -, hend, -⟩ := sample_end
  obtain ⟨r, hr, id, hid, m, hm, x, hx, htime⟩ := signedAtEnd_eq_true hend
  have hin := (h _ _ _ sample_run sample_nonDecreasing id m _ r x hm hr hid hx).2
  rw [htime] at hin
  exact lt_irrefl _ hin

end Klick
