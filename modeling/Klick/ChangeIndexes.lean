-- The indices of change over whole runs: only the command `sign` records a
-- signature, and a signature takes the next index of its account or that of its
-- own first one. So no two intents of an account share an index.
import Klick.BtcSpends
import Klick.Payments
import Mathlib.Tactic.Ring

open Js

namespace Klick

/-! ## Who signs -/

/-- No decision of a command records a signature. -/
def NeverSigns (v : Except Failure Decision) : Prop :=
  ∀ d body, v = .ok d → d.event = some body → body.signed? = none

section Decisions

variable {α : Type} {x : Except Failure α} {f : α → Except Failure Decision}

theorem neverSigns_bind (h : ∀ a, NeverSigns (f a)) : NeverSigns (x >>= f) := by
  intro d body hd hbody
  obtain ⟨a, -, ha⟩ := bind_eq_ok.mp hd
  exact h a d body ha hbody

theorem neverSigns_error (e : Failure) : NeverSigns (.error e) := by
  intro d body hd
  cases hd

theorem neverSigns_answer (v : Value) : NeverSigns (.ok (.answer v)) := by
  rintro _ _ ⟨⟩ ⟨⟩

theorem neverSigns_some {body : EventBody} (h : body.signed? = none)
    (reply : Signer → Except Failure Value) : NeverSigns (.ok ⟨some body, reply⟩) := by
  rintro _ _ ⟨⟩ ⟨⟩
  exact h

end Decisions

section Commands

variable {P : Platform} {g : Signer} {call : Call}

/-- Nothing of what is recorded is a signature. -/
def Unsigned (es : List SignerEvent) : Prop := ∀ e ∈ es, e.body.signed? = none

theorem record_recorded (k : ℕ) (body : EventBody) :
    ∀ e ∈ (record P g call k body).recorded, e.body = body := by
  unfold record
  intro e he
  split at he
  · cases he
  · split at he
    · cases he
    · dsimp only at he
      split at he <;> rw [List.mem_singleton.mp he]

/-- What is recorded is the event of the decision. -/
theorem carryOut_recorded {v : Except Failure Decision} {e : SignerEvent}
    (he : e ∈ (carryOut P g call v).recorded) : ∃ d, v = .ok d ∧ d.event = some e.body := by
  unfold carryOut at he
  split at he
  · cases he
  · cases he
  · rename_i body reply
    refine ⟨_, rfl, ?_⟩
    rw [record_recorded 0 body e he]

theorem carryOut_unsigned {v : Except Failure Decision} (h : NeverSigns v) :
    Unsigned (carryOut P g call v).recorded := by
  intro e he
  obtain ⟨d, hd, hbody⟩ := carryOut_recorded he
  exact h d e.body hd hbody

theorem record_unsigned {k : ℕ} {body : EventBody} (h : body.signed? = none) :
    Unsigned (record P g call k body).recorded := by
  intro e he
  rw [record_recorded k body e he]
  exact h

theorem andThen_unsigned {α β : Type} {o : Outcome α} {f : Signer → α → Outcome β}
    (h : Unsigned o.recorded) (hf : ∀ g a, Unsigned (f g a).recorded) :
    Unsigned (o.andThen f).recorded := by
  unfold Outcome.andThen
  split
  · exact h
  · intro e he
    rcases List.mem_append.mp he with he | he
    · exact h e he
    · exact hf _ _ e he

theorem recordNetworks_unsigned (seeds : List (WalletNetwork × Bytes)) (k : ℕ) (g : Signer) :
    Unsigned (recordNetworks P call k seeds g).recorded := by
  induction seeds generalizing k g with
  | nil => exact fun e he => absurd he List.not_mem_nil
  | cons s seeds ih => exact andThen_unsigned (record_unsigned rfl) fun g _ => ih (k + 1) g

/-- Only the command `sign` records a signature. -/
theorem run_unsigned (hinv : SignerInv g) {cmd : Command} (hne : cmd ≠ .sign) :
    Unsigned (run P g cmd call).recorded := by
  have hnil : Unsigned [] := fun e he => absurd he List.not_mem_nil
  have htaken : ∀ a, Unsigned (takePrepared P g call a).recorded := by
    intro a
    rw [(takePrepared_taken hinv a).recorded]
    exact hnil
  cases cmd
  case sign => exact absurd rfl hne
  case hello | status | journalHead => exact hnil
  case seedPrepare =>
    change Unsigned (seedPrepare P g call).recorded
    unfold seedPrepare
    split <;> exact hnil
  case initCommit =>
    change Unsigned (initCommit P g call).recorded
    unfold initCommit
    split
    · exact hnil
    · exact andThen_unsigned (htaken _) fun _ _ =>
        andThen_unsigned (record_unsigned rfl) fun _ _ => hnil
  case networkCommit =>
    change Unsigned (networkCommit P g call).recorded
    unfold networkCommit
    split
    · exact hnil
    · exact andThen_unsigned (htaken _) fun g _ =>
        andThen_unsigned (recordNetworks_unsigned _ 0 g) fun _ _ => hnil
  case rekey =>
    change Unsigned (rekey P g call).recorded
    unfold rekey
    split
    · exact hnil
    · split
      · exact hnil
      · exact andThen_unsigned (record_unsigned rfl) fun _ _ => hnil
  all_goals apply carryOut_unsigned
  case' accountCreate => unfold accountCreate
  case' intentCreate => unfold intentCreate
  case' approve => unfold approve
  case' intentCancel => unfold intentCancel
  case' whitelistVeto => unfold whitelistVeto
  case' freeze => unfold freeze
  case' unfreeze => unfold unfreeze
  case' policyTighten => unfold policyTighten
  case' policySet => unfold policySet
  case' mandateCreate => unfold mandateCreate
  case' mandateApprove => unfold mandateApprove
  case' mandateRevoke => unfold mandateRevoke
  case' enrolFinish => unfold enrolFinish
  case' enrolStart => unfold enrolStart
  case' keyRevoke => unfold keyRevoke
  case' journalVerify => unfold journalVerify
  case' intentGet => unfold intentGet
  case' mandateGet => unfold mandateGet
  case' enrolInfo => unfold enrolInfo
  case' exportXpubs => unfold exportXpubs
  -- every path of a command ends with an error, an answer, or an event of its own
  all_goals repeat' first
    | (apply neverSigns_bind; intro _)
    | split
  all_goals first
    | exact neverSigns_answer _
    | exact neverSigns_some rfl _

end Commands

/-! ## The index of a signature -/

/-- What the command `sign` ran on when it recorded a signature. -/
structure SignedBy (P : Platform) (g : Signer) (d : Signed) (r : IntentRecord) (i : Payout)
    (account : AccountRecord) (policy : Policy) (a : Value) (replaced : Replaced) : Prop where
  record : g.state.intents.get d.intentId = some r
  payout : payoutOf r.intent = some i
  known : g.state.accounts.get i.accountId = some account
  accountId : d.accountId = i.accountId
  network : d.network = i.network
  mode : d.mode.isFirst = replaced.isNone
  first : ∀ p, replaced = some p → r.first = some p.1
  plan : signPlan P g policy r i account d.mode replaced a = .ok d

section Signing

variable {P : Platform} {g : Signer} {d : Signed}

theorem sign_signedBy (hids : IdsMatch g.state) {call : Call} {dec : Decision}
    (h : sign P g call = .ok dec) (hd : dec.event = some (.signed d)) :
    ∃ r i account policy a replaced, SignedBy P g d r i account policy a replaced := by
  unfold sign at h
  simp only [bind_eq_ok, check_eq_ok, exists_const, orRefuse_eq_ok] at h
  obtain ⟨a, -, ⟨init, policy⟩, -, -, -, r, hr, mode, -, i, hi, -, account, haccount, h⟩ := h
  have hget := intentOf_eq_ok hids hr
  have hby : ∀ {replaced}, mode.isFirst = Option.isNone replaced →
      (∀ p, replaced = some p → r.first = some p.1) →
      signPlan P g policy r i account mode replaced a = .ok d →
      SignedBy P g d r i account policy a replaced := by
    intro replaced hmode hfirst hplan
    obtain ⟨hid, hm, hacc, ⟨hnet, -⟩, -⟩ := signPlan_admits hplan
    refine ⟨by rw [hid]; exact hget, hi, haccount, ?_, hnet, by rw [hm]; exact hmode, hfirst,
      by rw [hm]; exact hplan⟩
    rw [hacc, hids.accounts _ _ haccount]
  by_cases hmode : mode.isFirst = true
  · rw [if_pos hmode] at h
    split at h
    · obtain rfl := pure_eq_ok.mp h
      cases hd
    · simp only [bind_eq_ok, pure_eq_ok] at h
      obtain ⟨_, -, e, he, rfl⟩ := h
      obtain rfl := EventBody.signed.inj (Option.some.inj hd)
      refine ⟨r, i, account, policy, a, none, hby hmode ?_ he⟩
      intro p hp
      cases hp
  · rw [if_neg hmode] at h
    simp only [bind_eq_ok, pure_eq_ok] at h
    obtain ⟨⟨first, last⟩, hrep, e, he, rfl⟩ := h
    obtain rfl := EventBody.signed.inj (Option.some.inj hd)
    obtain ⟨hfirst, -⟩ := checkReplacement_eq_ok hrep
    refine ⟨r, i, account, policy, a, some (first, last), hby (by simpa using hmode) ?_ he⟩
    rintro _ ⟨⟩
    exact hfirst

/-- A line that records a signature ran the command `sign`. -/
theorem handleLine_signedBy (hinv : SignerInv g) {scope : By} {w : World} {text : Text}
    {e : SignerEvent} (he : e ∈ (handleLine P scope g w text).recorded)
    (hd : e.body = .signed d) :
    ∃ r i account policy a replaced, SignedBy P g d r i account policy a replaced := by
  rcases handleLine_cases P scope g w text with ⟨id, f, hl⟩ | ⟨id, cmd, args, hl⟩
  · rw [hl] at he
    cases he
  · rw [hl] at he
    change e ∈ (run P g cmd { w with args := args }).recorded at he
    by_cases hcmd : cmd = .sign
    · subst hcmd
      obtain ⟨dec, hdec, hbody⟩ := carryOut_recorded he
      rw [hd] at hbody
      exact sign_signedBy hinv.ids hdec hbody
    · have hnone := run_unsigned hinv hcmd e he
      rw [hd] at hnone
      cases hnone

/-- The plan that was signed, by the chain of its network. -/
theorem SignedBy.draft {r : IntentRecord} {i : Payout} {account : AccountRecord} {policy : Policy}
    {a : Value} {replaced : Replaced} (h : SignedBy P g d r i account policy a replaced) :
    ∃ plan, signChain P g r i account.index d.mode plan policy replaced =
      .ok ⟨d.txid, d.raw, d.fee, d.spent⟩ := by
  have hplan := h.plan
  unfold signPlan at hplan
  simp only [bind_eq_ok, pure_eq_ok] at hplan
  obtain ⟨plan, -, draft, hdraft, hd⟩ := hplan
  refine ⟨plan, ?_⟩
  rw [hdraft, ← hd]

/-- A signature takes the next index of its account, or that of its first one. -/
theorem SignedBy.index {r : IntentRecord} {i : Payout} {account : AccountRecord} {policy : Policy}
    {a : Value} {replaced : Replaced} (h : SignedBy P g d r i account policy a replaced) {n : ℕ}
    (hn : d.changeIndex = some n) : n = indexFor g.state i.accountId replaced := by
  obtain ⟨plan, hdraft⟩ := h.draft
  unfold signChain at hdraft
  unfold Signed.changeIndex at hn
  cases hchain : i.network.chain with
  | bitcoin =>
    rw [hchain] at hdraft
    obtain ⟨keyAt, inputs, p, index, -, hspend, hindex⟩ := signBtc_spends hdraft h.mode
    have hspent := hspend.recorded
    dsimp only at hspent
    rw [hspent] at hn
    exact hindex n hn
  | ethereum =>
    rw [hchain] at hdraft
    unfold signEth at hdraft
    simp only [bind_eq_ok, pure_eq_ok] at hdraft
    obtain ⟨_, -, _, -, _, -, _, -, _, -, _, -, _, -, s, -, hd⟩ := hdraft
    have hspent := congrArg SpentDraft.spent hd
    dsimp only at hspent
    rw [← hspent] at hn
    cases hn

end Signing

/-! ## The invariant -/

/-- Every index that was taken lies before the next one of its account, and no two intents
of an account took the same. -/
structure Indexed (s : SignerState) : Prop where
  before : ∀ k r, s.intents.get k = some r → ∀ x ∈ r.signatures, ∀ n,
    x.signed.changeIndex = some n → n < nextChangeOf s x.signed.accountId
  apart : ∀ k r j q, s.intents.get k = some r → s.intents.get j = some q →
    ∀ x ∈ r.signatures, ∀ y ∈ q.signatures, x.signed.accountId = y.signed.accountId →
    ∀ n, x.signed.changeIndex = some n → y.signed.changeIndex = some n → k = j

/-- What a signature may take: the next index, or one that its intent has already. -/
def TakesIndex (s : SignerState) (d : Signed) : Prop :=
  ∀ n, d.changeIndex = some n → n = nextChangeOf s d.accountId ∨
    ∃ r, s.intents.get d.intentId = some r ∧ ∃ x ∈ r.signatures,
      x.signed.accountId = d.accountId ∧ x.signed.changeIndex = some n

section Step

variable {A : AddressLib} {s s' : SignerState} {e : SignerEvent}

theorem nextChange_of_apply (h : apply A s e = .ok s') (hne : e.body.signed? = none) :
    s'.nextChange = s.nextChange := by
  obtain ⟨n, t, body⟩ := e
  cases body with
  | signed => cases hne
  | intent =>
    obtain ⟨i, -, hs⟩ := bind_eq_ok.mp h
    obtain rfl := Except.ok.inj hs
    rfl
  | mandate =>
    simp only [apply] at h
    split at h <;> obtain rfl := Except.ok.inj h <;> rfl
  | _ =>
    obtain rfl := Except.ok.inj h
    rfl

/-- An event that is no signature takes no index. -/
theorem Indexed.kept (h : Indexed s) (happly : apply A s e = .ok s')
    (hne : e.body.signed? = none) : Indexed s' := by
  have hold : ∀ k r, s'.intents.get k = some r → ∀ x ∈ r.signatures,
      ∃ r0, s.intents.get k = some r0 ∧ x ∈ r0.signatures := by
    intro k r hr x hx
    rcases (intents_of_apply happly hr).signatures hne with hnil | ⟨r0, hr0, hsigs, -⟩
    · rw [hnil] at hx
      cases hx
    · exact ⟨r0, hr0, hsigs ▸ hx⟩
  constructor
  · intro k r hr x hx n hn
    obtain ⟨r0, hr0, hx0⟩ := hold k r hr x hx
    rw [nextChangeOf, nextChange_of_apply happly hne]
    exact h.before k r0 hr0 x hx0 n hn
  · intro k r j q hr hq x hx y hy
    obtain ⟨r0, hr0, hx0⟩ := hold k r hr x hx
    obtain ⟨q0, hq0, hy0⟩ := hold j q hq y hy
    exact h.apart k r0 j q0 hr0 hq0 x hx0 y hy0

/-- The next index never falls, and passes the one that is taken. -/
theorem nextChangeOf_signed {d : Signed} (happly : apply A s e = .ok s')
    (hbody : e.body = .signed d) :
    (∀ a, nextChangeOf s a ≤ nextChangeOf s' a) ∧
      ∀ n, d.changeIndex = some n → n < nextChangeOf s' d.accountId := by
  unfold apply at happly
  rw [hbody] at happly
  have hs := Except.ok.inj happly
  subst hs
  unfold nextChangeOf
  cases hd : d.changeIndex with
  | none => exact ⟨fun _ => le_rfl, nofun⟩
  | some i =>
    dsimp only
    constructor
    · intro a
      rw [OrderedMap.get_set]
      by_cases ha : a = d.accountId
      · rw [if_pos ha, ha, Option.getD_some]
        exact le_max_left _ _
      · rw [if_neg ha]
    · rintro _ ⟨⟩
      rw [OrderedMap.get_set, if_pos rfl, Option.getD_some]
      exact lt_of_lt_of_le (Nat.lt_succ_self i) (le_max_right _ _)

/-- An index that another intent of the account has is not taken. -/
theorem Indexed.others (h : Indexed s) {d : Signed} (htakes : TakesIndex s d) {j : Text}
    {q : IntentRecord} (hq : s.intents.get j = some q) (hj : j ≠ d.intentId) {y : Signature}
    (hy : y ∈ q.signatures) (ha : y.signed.accountId = d.accountId) {n : ℕ}
    (hn : d.changeIndex = some n) : y.signed.changeIndex ≠ some n := by
  intro hyn
  rcases htakes n hn with rfl | ⟨r, hr, x, hx, hxa, hxn⟩
  · have hlt := h.before j q hq y hy _ hyn
    rw [ha] at hlt
    exact lt_irrefl _ hlt
  · exact hj (h.apart _ q _ r hq hr y hy x hx (ha.trans hxa.symm) n hyn hxn)

/-- A signature that takes its index so keeps the invariant. -/
theorem Indexed.signed (h : Indexed s) {d : Signed} (htakes : TakesIndex s d)
    (happly : apply A s e = .ok s') (hbody : e.body = .signed d) : Indexed s' := by
  have hchange := fun k r hr => (intents_of_apply happly (k := k) (r := r) hr).ofSigned hbody
  obtain ⟨hmono, hnew⟩ := nextChangeOf_signed happly hbody
  -- a signature of the next state is an old one of its intent, or the new one
  have hcases : ∀ k r, s'.intents.get k = some r → ∀ x ∈ r.signatures,
      (∃ r0, s.intents.get k = some r0 ∧ x ∈ r0.signatures) ∨ (k = d.intentId ∧ x.signed = d) := by
    intro k r hr x hx
    rcases hchange k r hr with ⟨-, hr0⟩ | ⟨hk, r0, hr0, rfl⟩
    · exact .inl ⟨r, hr0, hx⟩
    · rcases List.mem_append.mp hx with hx | hx
      · exact .inl ⟨r0, hr0, hx⟩
      · rw [List.mem_singleton.mp hx]
        exact .inr ⟨hk, rfl⟩
  constructor
  · intro k r hr x hx n hn
    rcases hcases k r hr x hx with ⟨r0, hr0, hx0⟩ | ⟨-, hd⟩
    · exact lt_of_lt_of_le (h.before k r0 hr0 x hx0 n hn) (hmono _)
    · rw [hd] at hn ⊢
      exact hnew n hn
  · intro k r j q hr hq x hx y hy ha n hxn hyn
    by_contra hne
    rcases hcases k r hr x hx with ⟨r0, hr0, hx0⟩ | ⟨hk, hxd⟩ <;>
      rcases hcases j q hq y hy with ⟨q0, hq0, hy0⟩ | ⟨hj, hyd⟩
    · exact hne (h.apart k r0 j q0 hr0 hq0 x hx0 y hy0 ha n hxn hyn)
    · rw [hyd] at ha hyn
      exact h.others htakes hr0 (fun hk => hne (hk.trans hj.symm)) hx0 ha hyn hxn
    · rw [hxd] at ha hxn
      exact h.others htakes hq0 (fun hj => hne (hk.trans hj.symm)) hy0 ha.symm hxn hyn
    · exact hne (hk.trans hj.symm)

end Step

/-! ## Runs -/

/-- The index of a recorded signature is the next one, or one of its intent. -/
theorem SignedBy.takesIndex {P : Platform} {g : Signer} {es : List Timed} (hg : Reached P g es)
    {d : Signed} {r : IntentRecord} {i : Payout} {account : AccountRecord} {policy : Policy}
    {a : Value} {replaced : Replaced} (h : SignedBy P g d r i account policy a replaced) :
    TakesIndex g.state d := by
  intro n hn
  have hindex := h.index hn
  unfold indexFor at hindex
  rw [h.accountId]
  cases hrep : replaced with
  | none =>
    rw [hrep] at hindex
    exact .inl hindex
  | some p =>
    rw [hrep, Option.bind_some] at hindex
    cases hfirst : p.1.signed.changeIndex with
    | none =>
      rw [hfirst] at hindex
      exact .inl hindex
    | some m =>
      rw [hfirst] at hindex
      obtain ⟨hone, hof⟩ := hg.history.spending.good _ _ h.record
      have hmem := List.mem_of_mem_head? (hone.head_of_first (h.first p hrep))
      obtain ⟨i', hi', hacc, -⟩ := hof p.1 hmem
      rw [h.payout] at hi'
      obtain rfl := Option.some.inj hi'
      refine .inr ⟨r, h.record, p.1, hmem, hacc, ?_⟩
      rw [hfirst, hindex]
      rfl

/-- **After every run** no two intents of an account share an index of change. -/
theorem Run.indexed {P : Platform} (hA : AddressShapes P.addresses) {as : List Action} {g : Signer}
    {es : List Timed} (h : Run P as g es) : Indexed g.state := by
  induction h with
  | @start cfg g hopen =>
    have hs : g.state = emptyState := (Except.ok.inj (reached_start hopen).history.replay).symm
    have hnone : ∀ k r, g.state.intents.get k ≠ some r := by
      rw [hs]
      intro k r hr
      cases hr
    exact ⟨fun k r hr => absurd hr (hnone k r), fun k r _ _ hr => absurd hr (hnone k r)⟩
  | @line as g es scope w text hrun ih =>
    have hg := hrun.reached hA
    obtain ⟨heff, -⟩ := handleLine_effect hA hg.inv scope w text
    cases heff with
    | nothing _ _ hs =>
      rw [hs]
      exact ih
    | @event body _ _ _ _ _ happly hrec _ _ =>
      cases hbody : body.signed? with
      | none => exact ih.kept happly hbody
      | some d =>
        have hd : body = .signed d := by
          cases body <;> cases hbody
          rfl
        obtain ⟨r, i, account, policy, a, replaced, hby⟩ := handleLine_signedBy hg.inv
          (by rw [hrec]; exact List.mem_singleton_self _) hd
        exact ih.signed (hby.takesIndex hg) happly hd
  | @restart as g g' es cfg hrun hopen ih =>
    obtain ⟨-, hs, -⟩ := (hrun.reached hA).restart hopen
    rw [hs]
    exact ih

/-! ## The laws of a Bitcoin spend -/

section Coin

/-- A coin of 1000. -/
def coinId : Text := List.replicate 64 (ch '0')

/-- A library whose fee is what the outputs leave of the inputs. -/
def coinLib : BtcLib where
  p2wpkhScript pub := pub
  p2wpkhAddress _ _ := js "tb1q"
  fromRaw _ := some ⟨coinId, [⟨some [], some 1000⟩]⟩
  sign p := some ⟨js "00", js "01", p.total - p.amount - p.changeAmount, 100, by decide⟩

def coinAddresses : AddressLib := ⟨fun _ _ => true, fun _ => true, fun t => t⟩

def coinKeys : ℕ → ℕ → Except KeyError BtcKey := fun _ _ => .ok ⟨[], []⟩

def coinInputs : List BtcSpendInput := [⟨coinId, 0, [], 0, 0⟩]

/-- What the coin may pay, with the change at the first index. -/
def coinRequest (amount fee : ℕ) : BtcSpendRequest :=
  ⟨.bitcoinSignet, js "tb1q", amount, coinInputs, some 0, fee, 500, .int 10⟩

theorem coin_read : spendInputs coinLib coinKeys [] coinInputs =
    .ok [⟨coinId, 0, [], [], 1000, ⟨[], []⟩⟩] := by decide

theorem coin_rate {k : ℕ} (h : k ≤ 10) : rateAbove (100 * k) 100 (.int 10) = .ok false := by
  have hfl : fl ((100 * k : ℕ) : ℚ) / (100 : ℕ) = ((k : ℤ) : ℚ) := by
    have hz := fl_intCast (z := (100 * k : ℕ)) (by rw [Nat.abs_cast]; omega)
    rw [Int.cast_natCast] at hz
    rw [hz]
    push_cast
    ring
  unfold rateAbove
  rw [hfl, Number.ofRat_safe (by rw [Int.natAbs_natCast]; unfold maxSafe; omega)]
  change (Value.int 10).lt (.int k) = .ok false
  rw [Value.lt_int, decide_eq_false (by omega)]

end Coin

end Klick
