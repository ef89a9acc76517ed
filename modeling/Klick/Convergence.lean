-- Whether the state events of a link leave the same rows in every order: which
-- event kinds compare revisions, and what that leaves to the order.
import Klick.NormalForm
import Klick.UnknownEvents

open Js

namespace Klick

/-! ## State events -/

inductive StateKind
  | org | account | transfer | payout | day
deriving DecidableEq, Repr

def StateKind.type : StateKind → LinkEventType
  | .org => .orgUpdated
  | .account => .accountUpserted
  | .transfer => .transferUpserted
  | .payout => .payoutUpserted
  | .day => .dayClosed

/-- An event that carries the state of an object. -/
structure StateEvent where
  kind : StateKind
  data : Value
  seq : ℤ

namespace StateEvent

/-- The object: its kind and its own key. -/
def object (e : StateEvent) : StateKind × Text :=
  match e.kind with
  | .org => (.org, [])
  | .account => (.account, uuidText ((e.data.at "account").at "id").asText)
  | .transfer => (.transfer, uuidText ((e.data.at "transfer").at "id").asText)
  | .payout => (.payout, uuidText ((e.data.at "payout").at "id").asText)
  | .day => (.day, (e.data.at "date").asText)

/-- A day has its `seq` for a revision. -/
def rev (e : StateEvent) : ℤ :=
  match e.kind with
  | .day => e.seq
  | _ => revOf e.data

def apply (linkId : Text) (t : LinkTables) (e : StateEvent) : LinkTables :=
  applyEvent t linkId e.kind.type e.data e.seq

/-- Several events, in the order of the list. -/
def applyAll (linkId : Text) (t : LinkTables) (es : List StateEvent) : LinkTables :=
  es.foldl (apply linkId) t

/-- The writes to one table that events of a kind make. -/
def writesOf {V : Type} (kind : StateKind) (write : StateEvent → LinkRow V)
    (es : List StateEvent) : List (LinkRow V) :=
  (es.filter fun e => e.kind = kind).map write

def accountWrites (linkId : Text) : List StateEvent → List (LinkRow AccountRow) :=
  writesOf .account fun e => accountWrite linkId e.data

def movementWrites (linkId : Text) : List StateEvent → List (LinkRow Value) :=
  writesOf .transfer fun e => movementWrite linkId e.data

def payoutWrites (linkId : Text) : List StateEvent → List (LinkRow Value) :=
  writesOf .payout fun e => payoutWrite linkId e.data

def balanceWrites (linkId : Text) : List StateEvent → List (LinkRow Value) :=
  writesOf .day fun e => balanceWrite linkId e.data e.seq

/-- What an event does to the row of its link. -/
def onLink (l : WalletLink) (e : StateEvent) : WalletLink :=
  match e.kind with
  | .org => l.withOrg (orgValues e.data)
  | .day => l.withDay (e.data.at "date").asText
  | _ => l

/-! ## The tables after several events -/

theorem applyAll_tables (linkId : Text) (es : List StateEvent) : ∀ t : LinkTables,
    (applyAll linkId t es).accounts =
      Write.putAll mergeAccount t.accounts (accountWrites linkId es) ∧
    (applyAll linkId t es).movements =
      Write.putAll (fun _ new => new) t.movements (movementWrites linkId es) ∧
    (applyAll linkId t es).payouts =
      Write.putAll (fun _ new => new) t.payouts (payoutWrites linkId es) ∧
    (applyAll linkId t es).balances =
      Write.putAll (fun _ new => new) t.balances (balanceWrites linkId es) := by
  induction es with
  | nil => exact fun t => ⟨rfl, rfl, rfl, rfl⟩
  | cons e es ih =>
    intro t
    obtain ⟨kind, data, seq⟩ := e
    obtain ⟨h1, h2, h3, h4⟩ := ih (apply linkId t ⟨kind, data, seq⟩)
    change (applyAll linkId (apply linkId t ⟨kind, data, seq⟩) es).accounts = _ ∧ _
    cases kind with
    | org => exact ⟨h1, h2, h3, h4⟩
    | account => exact ⟨h1, h2, h3, h4⟩
    | transfer => exact ⟨h1, h2, h3, h4⟩
    | payout => exact ⟨h1, h2, h3, h4⟩
    | day => exact ⟨h1, h2, h3, h4⟩

theorem apply_link {linkId : Text} {t : LinkTables} {l : WalletLink} (h : t.link linkId = some l)
    (e : StateEvent) : (apply linkId t e).link linkId = some (onLink l e) := by
  obtain ⟨kind, data, seq⟩ := e
  cases kind with
  | org =>
    change (t.setLink linkId _).link linkId = _
    rw [link_setLink (f := fun l => l.withOrg _) fun _ => rfl, h]
    rfl
  | account => exact h
  | transfer => exact h
  | payout => exact h
  | day =>
    change (LinkTables.setLink { t with balances := _ } linkId _).link linkId = _
    rw [link_setLink (f := fun l => l.withDay _) fun _ => rfl]
    change (t.link linkId).map _ = _
    rw [h]
    rfl

theorem applyAll_link {linkId : Text} (es : List StateEvent) : ∀ {t : LinkTables} {l : WalletLink},
    t.link linkId = some l → (applyAll linkId t es).link linkId = some (es.foldl onLink l) := by
  induction es with
  | nil => exact fun h => h
  | cons e es ih => exact fun h => ih (apply_link h e)

end StateEvent

/-! ## The row of the link -/

def WalletLink.orgValues (l : WalletLink) : OrgValues :=
  ⟨l.walletOrgName, l.walletOrgSlug, l.custodyMode, l.isOperator, l.caspLicenceRef⟩

@[simp] theorem orgValues_withOrg (l : WalletLink) (o : OrgValues) : (l.withOrg o).orgValues = o :=
  rfl

@[simp] theorem orgValues_withDay (l : WalletLink) (date : Text) :
    (l.withDay date).orgValues = l.orgValues := rfl

@[simp] theorem lastDayClosed_withOrg (l : WalletLink) (o : OrgValues) :
    (l.withOrg o).lastDayClosed = l.lastDayClosed := rfl

@[simp] theorem lastDayClosed_withDay (l : WalletLink) (date : Text) :
    (l.withDay date).lastDayClosed = laterDay l.lastDayClosed date := rfl

/-- The latest of several days. -/
def Latest (days : List Text) : Option Text → Prop
  | none => days = []
  | some day => day ∈ days ∧ ∀ d ∈ days, textLe d day = true

theorem Latest.unique {days days' : List Text} (hsame : ∀ d, d ∈ days ↔ d ∈ days')
    {a b : Option Text} (ha : Latest days a) (hb : Latest days' b) : a = b := by
  cases a with
  | none =>
    cases b with
    | none => rfl
    | some y =>
      have hy := (hsame y).mpr hb.1
      rw [show days = [] from ha] at hy
      exact absurd hy List.not_mem_nil
  | some x =>
    cases b with
    | none =>
      have hx := (hsame x).mp ha.1
      rw [show days' = [] from hb] at hx
      exact absurd hx List.not_mem_nil
    | some y =>
      have h1 := ha.2 y ((hsame y).mpr hb.1)
      have h2 := hb.2 x ((hsame x).mp ha.1)
      rw [textLe_antisymm h2 h1]

theorem latest_laterDay {days : List Text} {stored : Option Text} (h : Latest days stored)
    (date : Text) : Latest (days ++ [date]) (laterDay stored date) := by
  cases stored with
  | none =>
    rw [show days = [] from h]
    exact ⟨by simp, fun d hd => by rw [List.mem_singleton.mp hd]; exact textLe_refl date⟩
  | some day =>
    obtain ⟨hmem, hmax⟩ := h
    unfold laterDay
    dsimp only
    by_cases hlater : (textLe day date && day ≠ date) = true
    · rw [if_pos hlater]
      have hle : textLe day date = true := by
        simp only [Bool.and_eq_true] at hlater
        exact hlater.1
      refine ⟨by simp, fun d hd => ?_⟩
      rcases List.mem_append.mp hd with hd | hd
      · exact textLe_trans (hmax d hd) hle
      · rw [List.mem_singleton.mp hd]
        exact textLe_refl date
    · rw [if_neg hlater]
      refine ⟨by simp [hmem], fun d hd => ?_⟩
      rcases List.mem_append.mp hd with hd | hd
      · exact hmax d hd
      · rw [List.mem_singleton.mp hd]
        by_cases hsame : day = date
        · rw [hsame]
          exact textLe_refl date
        · rcases textLe_total day date with hle | hle
          · simp [hle, hsame] at hlater
          · exact hle

namespace StateEvent

def days (es : List StateEvent) : List Text :=
  (es.filter fun e => e.kind = .day).map fun e => (e.data.at "date").asText

theorem latest_foldl (es : List StateEvent) {l : WalletLink} (h : l.lastDayClosed = none) :
    Latest (days es) (es.foldl onLink l).lastDayClosed := by
  induction es using List.reverseRecOn with
  | nil => exact (congrArg (Latest []) h).mpr rfl
  | append_singleton es e ih =>
    rw [List.foldl_append]
    obtain ⟨kind, data, seq⟩ := e
    have hother : kind ≠ .day → days (es ++ [⟨kind, data, seq⟩]) = days es := fun hk => by
      simp [days, hk]
    cases kind with
    | org =>
      rw [hother nofun]
      exact ih
    | account =>
      rw [hother nofun]
      exact ih
    | transfer =>
      rw [hother nofun]
      exact ih
    | payout =>
      rw [hother nofun]
      exact ih
    | day =>
      have hdays : days (es ++ [⟨.day, data, seq⟩]) = days es ++ [(data.at "date").asText] := by
        simp [days]
      rw [hdays]
      exact latest_laterDay ih _

/-- The organisation is what the last event about it says. -/
theorem orgValues_foldl_append (es : List StateEvent) {e : StateEvent} (he : e.kind = .org)
    (l : WalletLink) : ((es ++ [e]).foldl onLink l).orgValues = orgValues e.data := by
  rw [List.foldl_append]
  change (onLink (es.foldl onLink l) e).orgValues = _
  unfold onLink
  rw [he]
  rfl

theorem orgValues_foldl (es : List StateEvent) (l : WalletLink) :
    ((∀ e ∈ es, e.kind ≠ .org) ∧ (es.foldl onLink l).orgValues = l.orgValues) ∨
    ∃ e ∈ es, e.kind = .org ∧ (es.foldl onLink l).orgValues = orgValues e.data := by
  induction es using List.reverseRecOn with
  | nil => exact .inl ⟨fun e he => absurd he List.not_mem_nil, rfl⟩
  | append_singleton es e ih =>
    by_cases he : e.kind = .org
    · exact .inr ⟨e, by simp, he, orgValues_foldl_append es he l⟩
    · have hsame : ((es ++ [e]).foldl onLink l).orgValues = (es.foldl onLink l).orgValues := by
        rw [List.foldl_append]
        change (onLink (es.foldl onLink l) e).orgValues = _
        obtain ⟨kind, data, seq⟩ := e
        cases kind with
        | org => exact absurd rfl he
        | account => rfl
        | transfer => rfl
        | payout => rfl
        | day => rfl
      rw [hsame]
      rcases ih with ⟨hnone, hl⟩ | ⟨d, hd, hkind, hl⟩
      · refine .inl ⟨fun d hd => ?_, hl⟩
        rcases List.mem_append.mp hd with hd | hd
        · exact hnone d hd
        · rw [List.mem_singleton.mp hd]
          exact he
      · exact .inr ⟨d, by simp [hd], hkind, hl⟩

/-- Only the organisation and the last day of a link change. -/
theorem foldl_onLink (es : List StateEvent) (l : WalletLink) :
    es.foldl onLink l = { l.withOrg (es.foldl onLink l).orgValues with
      lastDayClosed := (es.foldl onLink l).lastDayClosed } := by
  induction es using List.reverseRecOn with
  | nil => rfl
  | append_singleton es e ih =>
    rw [List.foldl_append]
    change onLink (es.foldl onLink l) e = { l.withOrg (onLink (es.foldl onLink l) e).orgValues with
      lastDayClosed := (onLink (es.foldl onLink l) e).lastDayClosed }
    obtain ⟨kind, data, seq⟩ := e
    rw [ih]
    cases kind <;> rfl

end StateEvent

/-! ## Convergence -/

/-- The tables before the first event of a link: it is there, with no day closed and no rows. -/
structure Fresh (t : LinkTables) (linkId : Text) (l : WalletLink) : Prop where
  link : t.link linkId = some l
  lastDayClosed : l.lastDayClosed = none
  accounts : ∀ id, Write.at? t.accounts (linkId, id) = none
  movements : ∀ id, Write.at? t.movements (linkId, id) = none
  payouts : ∀ id, Write.at? t.payouts (linkId, id) = none
  balances : ∀ id, Write.at? t.balances (linkId, id) = none

/-- Two events about one object with one revision are the same event. -/
def DistinctRevs (S : List StateEvent) : Prop :=
  ∀ e ∈ S, ∀ d ∈ S, e.object = d.object → e.rev = d.rev → e = d

/-- The organisation's values are those of its event with the highest revision, if it has one. -/
def NewestOrg (S : List StateEvent) (before after : OrgValues) : Prop :=
  ((∀ e ∈ S, e.kind ≠ .org) ∧ after = before) ∨
  ∃ e ∈ S, e.kind = .org ∧ (∀ d ∈ S, d.kind = .org → d.rev ≤ e.rev) ∧ after = orgValues e.data

/-- Every object of a link has the values of its event with the highest revision. -/
structure NewestRows (S : List StateEvent) (linkId : Text) (l : WalletLink) (t : LinkTables) :
    Prop where
  accounts : ∀ id, Write.Newest (StateEvent.accountWrites linkId S) (linkId, id)
    (Write.at? t.accounts (linkId, id))
  movements : ∀ id, Write.Newest (StateEvent.movementWrites linkId S) (linkId, id)
    (Write.at? t.movements (linkId, id))
  payouts : ∀ id, Write.Newest (StateEvent.payoutWrites linkId S) (linkId, id)
    (Write.at? t.payouts (linkId, id))
  balances : ∀ id, Write.Newest (StateEvent.balanceWrites linkId S) (linkId, id)
    (Write.at? t.balances (linkId, id))
  link : ∃ l', t.link linkId = some l' ∧ NewestOrg S l.orgValues l'.orgValues ∧
    Latest (StateEvent.days S) l'.lastDayClosed

/-- The rows of a link are the same. -/
structure SameRows (linkId : Text) (t t' : LinkTables) : Prop where
  accounts : ∀ id, Write.at? t.accounts (linkId, id) = Write.at? t'.accounts (linkId, id)
  movements : ∀ id, Write.at? t.movements (linkId, id) = Write.at? t'.movements (linkId, id)
  payouts : ∀ id, Write.at? t.payouts (linkId, id) = Write.at? t'.payouts (linkId, id)
  balances : ∀ id, Write.at? t.balances (linkId, id) = Write.at? t'.balances (linkId, id)
  link : t.link linkId = t'.link linkId

/-- The events of a set, in some order and with repetitions. -/
def OrderOf (S es : List StateEvent) : Prop := ∀ e, e ∈ es ↔ e ∈ S

/-- Every order leaves the newest rows, and so all leave the same. -/
def Converges (linkId : Text) (t : LinkTables) (l : WalletLink) (S : List StateEvent) : Prop :=
  ∀ es, OrderOf S es → NewestRows S linkId l (StateEvent.applyAll linkId t es) ∧
    ∀ es', OrderOf S es' →
      SameRows linkId (StateEvent.applyAll linkId t es) (StateEvent.applyAll linkId t es')

/-- What an account keeps of its first event. -/
def AccountRow.fixed (a : AccountRow) : Value × Value × Value :=
  (a.network, a.keyFingerprint, a.openedAt)

/-- The events about the organisation say the same of it, and those about one account agree in its
network, its fingerprint and its opening. -/
structure Agree (S : List StateEvent) : Prop where
  org : ∀ e ∈ S, ∀ d ∈ S, e.kind = .org → d.kind = .org → orgValues e.data = orgValues d.data
  accounts : ∀ e ∈ S, ∀ d ∈ S, e.kind = .account → d.kind = .account → e.object = d.object →
    (accountRow (e.data.at "account")).fixed = (accountRow (d.data.at "account")).fixed

theorem mergeAccount_eq {old new : AccountRow} (h : old.fixed = new.fixed) :
    mergeAccount old new = new := by
  simp only [AccountRow.fixed, Prod.mk.injEq] at h
  simp [mergeAccount, h]

namespace StateEvent

theorem mem_writesOf {V : Type} {kind : StateKind} {write : StateEvent → LinkRow V}
    {es : List StateEvent} {w : LinkRow V} :
    w ∈ writesOf kind write es ↔ ∃ e ∈ es, e.kind = kind ∧ write e = w := by
  simp [writesOf, and_assoc]

/-- The writes of one kind are told apart by key and revision, as the events are. -/
theorem distinct_writesOf {V : Type} {kind : StateKind} {write : StateEvent → LinkRow V}
    {S : List StateEvent} (hd : DistinctRevs S)
    (hobject : ∀ e d : StateEvent, e.kind = kind → d.kind = kind →
      (write e).key = (write d).key → e.object = d.object)
    (hrev : ∀ e : StateEvent, e.kind = kind → e.rev = (write e).rev) :
    Write.Distinct (writesOf kind write S) := by
  intro w hw x hx hkey hwx
  obtain ⟨e, he, hek, rfl⟩ := mem_writesOf.1 hw
  obtain ⟨d, hdm, hdk, rfl⟩ := mem_writesOf.1 hx
  have hsame := hd e he d hdm (hobject e d hek hdk hkey)
    ((hrev e hek).trans (hwx.trans (hrev d hdk).symm))
  rw [hsame]

theorem writesOf_orderOf {V : Type} {kind : StateKind} {write : StateEvent → LinkRow V}
    {S es : List StateEvent} (h : OrderOf S es) (w : LinkRow V) :
    w ∈ writesOf kind write es ↔ w ∈ writesOf kind write S := by
  rw [mem_writesOf, mem_writesOf]
  constructor
  · rintro ⟨e, he, hw⟩
    exact ⟨e, (h e).mp he, hw⟩
  · rintro ⟨e, he, hw⟩
    exact ⟨e, (h e).mpr he, hw⟩

theorem days_orderOf {S es : List StateEvent} (h : OrderOf S es) (day : Text) :
    day ∈ days es ↔ day ∈ days S := by
  simp [days, h _]

theorem distinct_accountWrites {linkId : Text} {S : List StateEvent} (hd : DistinctRevs S) :
    Write.Distinct (accountWrites linkId S) := by
  apply distinct_writesOf hd
  · rintro ⟨_, data, seq⟩ ⟨_, data', seq'⟩ rfl rfl h
    exact congrArg (Prod.mk StateKind.account) (congrArg Prod.snd h :)
  · rintro ⟨_, data, seq⟩ rfl
    rfl

theorem distinct_movementWrites {linkId : Text} {S : List StateEvent} (hd : DistinctRevs S) :
    Write.Distinct (movementWrites linkId S) := by
  apply distinct_writesOf hd
  · rintro ⟨_, data, seq⟩ ⟨_, data', seq'⟩ rfl rfl h
    exact congrArg (Prod.mk StateKind.transfer) (congrArg Prod.snd h :)
  · rintro ⟨_, data, seq⟩ rfl
    rfl

theorem distinct_payoutWrites {linkId : Text} {S : List StateEvent} (hd : DistinctRevs S) :
    Write.Distinct (payoutWrites linkId S) := by
  apply distinct_writesOf hd
  · rintro ⟨_, data, seq⟩ ⟨_, data', seq'⟩ rfl rfl h
    exact congrArg (Prod.mk StateKind.payout) (congrArg Prod.snd h :)
  · rintro ⟨_, data, seq⟩ rfl
    rfl

theorem distinct_balanceWrites {linkId : Text} {S : List StateEvent} (hd : DistinctRevs S) :
    Write.Distinct (balanceWrites linkId S) := by
  apply distinct_writesOf hd
  · rintro ⟨_, data, seq⟩ ⟨_, data', seq'⟩ rfl rfl h
    exact congrArg (Prod.mk StateKind.day) (congrArg Prod.snd h :)
  · rintro ⟨_, data, seq⟩ rfl
    rfl

theorem merge_accountWrites {linkId : Text} {S : List StateEvent} (ha : Agree S) :
    ∀ w ∈ accountWrites linkId S, ∀ x ∈ accountWrites linkId S, w.key = x.key →
      mergeAccount x.value w.value = w.value := by
  intro w hw x hx hkey
  obtain ⟨⟨_, data, seq⟩, he, rfl, rfl⟩ := mem_writesOf.1 hw
  obtain ⟨⟨_, data', seq'⟩, hd, rfl, rfl⟩ := mem_writesOf.1 hx
  have hobject : (StateEvent.mk .account data' seq').object =
      (StateEvent.mk .account data seq).object :=
    congrArg (Prod.mk StateKind.account) (congrArg Prod.snd hkey.symm :)
  exact mergeAccount_eq (ha.accounts _ hd _ he rfl rfl hobject)

variable {linkId : Text} {t : LinkTables} {l : WalletLink} {S es : List StateEvent}

/-- The organisation has an event with the highest revision, if it has any. -/
theorem exists_newest_org (S : List StateEvent) : (∀ e ∈ S, e.kind ≠ .org) ∨
    ∃ e ∈ S, e.kind = .org ∧ ∀ d ∈ S, d.kind = .org → d.rev ≤ e.rev := by
  induction S with
  | nil => exact .inl fun e he => absurd he List.not_mem_nil
  | cons d S ih =>
    by_cases hd : d.kind = .org
    · rcases ih with hnone | ⟨e, he, hkind, hmax⟩
      · refine .inr ⟨d, List.mem_cons_self, hd, fun c hc hck => ?_⟩
        rcases List.mem_cons.mp hc with rfl | hc
        · exact le_refl _
        · exact absurd hck (hnone c hc)
      · by_cases hle : d.rev ≤ e.rev
        · refine .inr ⟨e, List.mem_cons_of_mem _ he, hkind, fun c hc hck => ?_⟩
          rcases List.mem_cons.mp hc with rfl | hc
          · exact hle
          · exact hmax c hc hck
        · refine .inr ⟨d, List.mem_cons_self, hd, fun c hc hck => ?_⟩
          rcases List.mem_cons.mp hc with rfl | hc
          · exact le_refl _
          · exact (hmax c hc hck).trans (not_le.mp hle).le
    · rcases ih with hnone | ⟨e, he, hkind, hmax⟩
      · refine .inl fun c hc => ?_
        rcases List.mem_cons.mp hc with rfl | hc
        · exact hd
        · exact hnone c hc
      · refine .inr ⟨e, List.mem_cons_of_mem _ he, hkind, fun c hc hck => ?_⟩
        rcases List.mem_cons.mp hc with rfl | hc
        · exact absurd hck hd
        · exact hmax c hc hck

/-- Where the events about the organisation say the same, the last one says what the newest does. -/
theorem newestOrg_foldl (ha : Agree S) (ho : OrderOf S es) (l : WalletLink) :
    NewestOrg S l.orgValues (es.foldl onLink l).orgValues := by
  rcases orgValues_foldl es l with ⟨hnone, hl⟩ | ⟨d, hd, hkind, hl⟩
  · exact .inl ⟨fun e he => hnone e ((ho e).mpr he), hl⟩
  · rcases exists_newest_org S with hnone | ⟨e, he, hek, hmax⟩
    · exact absurd hkind (hnone d ((ho d).mp hd))
    · exact .inr ⟨e, he, hek, hmax, hl.trans (ha.org d ((ho d).mp hd) e he hkind hek)⟩

theorem newestRows_of_agree (hf : Fresh t linkId l) (ha : Agree S) (ho : OrderOf S es) :
    NewestRows S linkId l (applyAll linkId t es) := by
  obtain ⟨h1, h2, h3, h4⟩ := applyAll_tables linkId es t
  have hae : Agree es :=
    ⟨fun e he d hd => ha.org e ((ho e).mp he) d ((ho d).mp hd),
      fun e he d hd => ha.accounts e ((ho e).mp he) d ((ho d).mp hd)⟩
  refine ⟨fun id => ?_, fun id => ?_, fun id => ?_, fun id => ?_, ?_⟩
  · rw [h1]
    exact (Write.newest_putAll (hf.accounts id) _ (merge_accountWrites hae)).of_same
      (writesOf_orderOf ho)
  · rw [h2]
    exact (Write.newest_putAll (hf.movements id) _ fun _ _ _ _ _ => rfl).of_same
      (writesOf_orderOf ho)
  · rw [h3]
    exact (Write.newest_putAll (hf.payouts id) _ fun _ _ _ _ _ => rfl).of_same
      (writesOf_orderOf ho)
  · rw [h4]
    exact (Write.newest_putAll (hf.balances id) _ fun _ _ _ _ _ => rfl).of_same
      (writesOf_orderOf ho)
  · refine ⟨_, applyAll_link es hf.link, newestOrg_foldl ha ho l, ?_⟩
    have hlatest := latest_foldl es hf.lastDayClosed
    cases hday : (es.foldl onLink l).lastDayClosed with
    | none =>
      rw [hday] at hlatest
      have hnone : ∀ d, d ∉ days S := fun d hd => by
        have hd' := (days_orderOf ho d).mpr hd
        rw [show days es = [] from hlatest] at hd'
        exact absurd hd' List.not_mem_nil
      exact List.eq_nil_iff_forall_not_mem.mpr hnone
    | some day =>
      rw [hday] at hlatest
      exact ⟨(days_orderOf ho day).mp hlatest.1,
        fun d hd => hlatest.2 d ((days_orderOf ho d).mpr hd)⟩

/-- What is newest is determined, so the rows of two orders are the same. -/
theorem sameRows_of_newest {es' : List StateEvent} (hf : Fresh t linkId l) (hd : DistinctRevs S)
    (h : NewestRows S linkId l (applyAll linkId t es))
    (h' : NewestRows S linkId l (applyAll linkId t es')) :
    SameRows linkId (applyAll linkId t es) (applyAll linkId t es') := by
  refine ⟨fun id => ?_, fun id => ?_, fun id => ?_, fun id => ?_, ?_⟩
  · exact (h.accounts id).unique (distinct_accountWrites hd) (fun _ => Iff.rfl) (h'.accounts id)
  · exact (h.movements id).unique (distinct_movementWrites hd) (fun _ => Iff.rfl) (h'.movements id)
  · exact (h.payouts id).unique (distinct_payoutWrites hd) (fun _ => Iff.rfl) (h'.payouts id)
  · exact (h.balances id).unique (distinct_balanceWrites hd) (fun _ => Iff.rfl) (h'.balances id)
  · obtain ⟨m, hm, horg, hday⟩ := h.link
    obtain ⟨m', hm', horg', hday'⟩ := h'.link
    rw [applyAll_link es hf.link] at hm
    rw [applyAll_link es' hf.link] at hm'
    have hvalues : m.orgValues = m'.orgValues := by
      rcases horg with ⟨hnone, ho⟩ | ⟨e, he, hek, hmax, ho⟩
      · rcases horg' with ⟨-, ho'⟩ | ⟨e', he', hek', -⟩
        · exact ho.trans ho'.symm
        · exact absurd hek' (hnone e' he')
      · rcases horg' with ⟨hnone, -⟩ | ⟨e', he', hek', hmax', ho'⟩
        · exact absurd hek (hnone e he)
        · have hobject : e.object = e'.object := by
            unfold object
            rw [hek, hek']
          have hrev : e.rev = e'.rev := le_antisymm (hmax' e he hek) (hmax e' he' hek')
          rw [ho, ho', hd e he e' he' hobject hrev]
    have hlast := hday.unique (fun _ => Iff.rfl) hday'
    rw [applyAll_link es hf.link, applyAll_link es' hf.link, hm, hm', Option.some.injEq]
    rw [← Option.some.inj hm, ← Option.some.inj hm'] at hvalues hlast ⊢
    rw [foldl_onLink es l, foldl_onLink es' l, hvalues, hlast]

/-- The first event about an account fixes its network, its fingerprint and its opening. -/
theorem applyAll_first_account (hf : Fresh t linkId l) {e : StateEvent} (he : e.kind = .account)
    (es : List StateEvent) :
    ∃ y, Write.at? (applyAll linkId t (e :: es)).accounts (accountWrite linkId e.data).key = some y ∧
      y.value.fixed = (accountRow (e.data.at "account")).fixed := by
  rw [(applyAll_tables linkId (e :: es) t).1]
  have hcons : accountWrites linkId (e :: es) =
      accountWrite linkId e.data :: accountWrites linkId es := by
    simp [accountWrites, writesOf, he]
  have hput : Write.at? (Write.put mergeAccount t.accounts (accountWrite linkId e.data))
      (accountWrite linkId e.data).key = some (accountWrite linkId e.data) := by
    rw [Write.at?_put, if_pos rfl]
    change some (Write.newer mergeAccount (Write.at? t.accounts (linkId, _)) _) = _
    rw [hf.accounts]
    rfl
  rw [hcons]
  have hkept : ∀ a b, (mergeAccount a b).fixed = a.fixed := fun _ _ => rfl
  exact Write.at?_putAll_kept hkept (accountWrites linkId es) hput

theorem orderOf_cons {e : StateEvent} (he : e ∈ S) : OrderOf S (e :: S) := fun _ =>
  ⟨fun hd => (List.mem_cons.mp hd).elim (fun h => h ▸ he) id, List.mem_cons_of_mem e⟩

theorem orderOf_append {e : StateEvent} (he : e ∈ S) : OrderOf S (S ++ [e]) := fun _ =>
  ⟨fun hd => (List.mem_append.mp hd).elim id fun h => List.mem_singleton.mp h ▸ he,
    List.mem_append_left [e]⟩

/-- An event put last decides on the organisation, one put first on what an account keeps. -/
theorem agree_of_converges (hf : Fresh t linkId l) (h : Converges linkId t l S) : Agree S where
  org := by
    intro e he d hd hek hdk
    have hsame := ((h _ (orderOf_append he)).2 _ (orderOf_append hd)).link
    rw [applyAll_link _ hf.link, applyAll_link _ hf.link, Option.some.injEq] at hsame
    rw [← orgValues_foldl_append S hek l, hsame, orgValues_foldl_append S hdk l]
  accounts := by
    intro e he d hd hek hdk hobject
    obtain ⟨y, hy, hye⟩ := applyAll_first_account hf hek S
    obtain ⟨z, hz, hzd⟩ := applyAll_first_account hf hdk S
    have hkey : (accountWrite linkId e.data).key = (accountWrite linkId d.data).key := by
      obtain ⟨_, data, seq⟩ := e
      obtain ⟨_, data', seq'⟩ := d
      cases hek
      cases hdk
      exact congrArg (Prod.mk linkId) (congrArg Prod.snd hobject :)
    have hsame := ((h _ (orderOf_cons he)).2 _ (orderOf_cons hd)).accounts
      (accountWrite linkId d.data).key.2
    rw [hkey] at hy
    have hrow := (hy.symm.trans hsame).trans hz
    rw [← hye, ← hzd, Option.some.inj hrow]

end StateEvent

/-- The events of a link leave the same newest rows in every order, with any repetitions, exactly
where its events about the organisation say the same and those about one account agree in what the
account keeps of its first event. -/
theorem converges_iff_agree {linkId : Text} {t : LinkTables} {l : WalletLink}
    {S : List StateEvent} (hf : Fresh t linkId l) (hd : DistinctRevs S) :
    Converges linkId t l S ↔ Agree S := by
  constructor
  · exact StateEvent.agree_of_converges hf
  · intro ha es ho
    have hnewest := StateEvent.newestRows_of_agree hf ha ho
    exact ⟨hnewest, fun es' ho' =>
      StateEvent.sameRows_of_newest hf hd hnewest (StateEvent.newestRows_of_agree hf ha ho')⟩

/-! ## An order that loses an update -/

/-- `org.updated` with a custody mode and a revision. -/
def orgEvent (mode : String) (rev seq : ℤ) : StateEvent :=
  ⟨.org, .obj (named
    [("org", .obj (named
        [("id", .text "3d9a8a34-6c33-4b9c-8f50-6a1c1c8f8f01"), ("name", .text "Nordlicht"),
          ("slug", .text "nordlicht")])),
      ("custodyMode", .text mode), ("isOperator", .bool false), ("caspLicenceRef", .null),
      ("rev", .int rev)]), seq⟩

/-- `account.upserted` of one account with a name and a revision. -/
def accountEvent (name : String) (rev seq : ℤ) : StateEvent :=
  ⟨.account, .obj (named
    [("account", .obj (named
        [("id", .text "3d9a8a34-6c33-4b9c-8f50-6a1c1c8f8f05"), ("name", .text name),
          ("network", .text "bitcoin_mainnet"), ("kind", .text "hot"), ("purpose", .text "own"),
          ("keyFingerprint", .text "0f056943"), ("firstAddress", .null), ("status", .text "active"),
          ("createdAt", .text "2026-03-02T08:00:00.000Z")])),
      ("rev", .int rev)]), seq⟩

theorem sampleTables_fresh : Fresh sampleTables (js "link") sampleLink :=
  ⟨rfl, rfl, fun _ => rfl, fun _ => rfl, fun _ => rfl, fun _ => rfl⟩

theorem orgEvents_distinct : DistinctRevs [orgEvent "own" 1 1, orgEvent "licensed" 2 2] := by
  have hrev : (orgEvent "own" 1 1).rev ≠ (orgEvent "licensed" 2 2).rev := by decide
  intro e he d hd _ heq
  simp only [List.mem_cons, List.not_mem_nil, or_false] at he hd
  rcases he with rfl | rfl <;> rcases hd with rfl | rfl
  · rfl
  · exact absurd heq hrev
  · exact absurd heq.symm hrev
  · rfl

/-- The newer event first, the older one after it: the link ends with the older mode. -/
theorem older_organisation_wins :
    DistinctRevs [orgEvent "own" 1 1, orgEvent "licensed" 2 2] ∧
    LinkEventType.orgUpdated.schema.accepts (orgEvent "own" 1 1).data = true ∧
    LinkEventType.orgUpdated.schema.accepts (orgEvent "licensed" 2 2).data = true ∧
    ((StateEvent.applyAll (js "link") sampleTables
      [orgEvent "licensed" 2 2, orgEvent "own" 1 1]).link (js "link")).map (·.custodyMode.asText) =
        some (js "own") ∧
    ¬ Converges (js "link") sampleTables sampleLink
      [orgEvent "own" 1 1, orgEvent "licensed" 2 2] := by
  refine ⟨orgEvents_distinct, by decide +kernel, by decide +kernel, by decide +kernel, fun h => ?_⟩
  have hagree := StateEvent.agree_of_converges sampleTables_fresh h
  have hsame := hagree.org (orgEvent "own" 1 1) (by simp) (orgEvent "licensed" 2 2) (by simp) rfl rfl
  have hmode : (orgValues (orgEvent "own" 1 1).data).custodyMode.asText ≠
      (orgValues (orgEvent "licensed" 2 2).data).custodyMode.asText := by decide +kernel
  exact hmode (congrArg (fun o : OrgValues => o.custodyMode.asText) hsame)

theorem accountEvent_fixed (name : String) (rev seq : ℤ) :
    (accountRow ((accountEvent name rev seq).data.at "account")).fixed =
      (.text "bitcoin_mainnet", .text "0f056943", (Value.text "2026-03-02T08:00:00.000Z").date) := by
  have houter : ∀ fs : List (String × Value), fs.map Prod.fst = ["account", "rev"] →
      ∀ f ∈ fs, isAsciiName f.1 = true := fun fs hfs f hf => by
    have hall : ∀ k ∈ ["account", "rev"], isAsciiName k = true := by decide
    exact hall _ (hfs ▸ List.mem_map_of_mem hf)
  have hinner : ∀ fs : List (String × Value), fs.map Prod.fst = ["id", "name", "network", "kind",
      "purpose", "keyFingerprint", "firstAddress", "status", "createdAt"] →
      ∀ f ∈ fs, isAsciiName f.1 = true := fun fs hfs f hf => by
    have hall : ∀ k ∈ ["id", "name", "network", "kind", "purpose", "keyFingerprint",
        "firstAddress", "status", "createdAt"], isAsciiName k = true := by decide
    exact hall _ (hfs ▸ List.mem_map_of_mem hf)
  unfold accountEvent accountRow AccountRow.fixed Value.at
  dsimp only
  rw [get_named (houter _ rfl) (by decide)]
  simp only [namedGet, String.reduceEq, if_true, if_false]
  rw [get_named (hinner _ rfl) (by decide), get_named (hinner _ rfl) (by decide),
    get_named (hinner _ rfl) (by decide)]
  simp only [namedGet, String.reduceEq, if_true, if_false]

theorem converges_iff_agree_sample :
    Converges (js "link") sampleTables sampleLink
      [orgEvent "own" 1 1, accountEvent "Kasse" 1 2, accountEvent "Kasse 2" 2 3] := by
  have hrev : (accountEvent "Kasse" 1 2).rev ≠ (accountEvent "Kasse 2" 2 3).rev := by decide
  have hfirst : (orgEvent "own" 1 1).object ≠ (accountEvent "Kasse" 1 2).object := by decide
  have hsecond : (orgEvent "own" 1 1).object ≠ (accountEvent "Kasse 2" 2 3).object := by
    decide
  apply (converges_iff_agree sampleTables_fresh ?_).mpr
  · constructor
    · intro e he d hd hek hdk
      simp only [List.mem_cons, List.not_mem_nil, or_false] at he hd
      rcases he with rfl | rfl | rfl
      · rcases hd with rfl | rfl | rfl
        · rfl
        · cases hdk
        · cases hdk
      · cases hek
      · cases hek
    · intro e he d hd hek hdk _
      simp only [List.mem_cons, List.not_mem_nil, or_false] at he hd
      rcases he with rfl | rfl | rfl
      · cases hek
      all_goals
        rcases hd with rfl | rfl | rfl
        · cases hdk
        · simp only [accountEvent_fixed]
        · simp only [accountEvent_fixed]
  · intro e he d hd hobject heq
    simp only [List.mem_cons, List.not_mem_nil, or_false] at he hd
    rcases he with rfl | rfl | rfl <;> rcases hd with rfl | rfl | rfl
    · rfl
    · exact absurd hobject hfirst
    · exact absurd hobject hsecond
    · exact absurd hobject.symm hfirst
    · rfl
    · exact absurd heq hrev
    · exact absurd hobject.symm hsecond
    · exact absurd heq.symm hrev
    · rfl

end Klick
