-- Which events break a batch: names that every object has pass for event types.
import Klick.Ingest

open Js

namespace Klick

/-- What every object has under a name that the schema of a batch admits. -/
def inheritedNames : List Text := [js "constructor", js "__proto__"]

/-- One of the defined results, and `unknown_type` exactly for a name that is no event type. -/
def ParsesWell (e : RawEvent) : Prop :=
  (∃ r, parseEventData e = .ok r) ∧ (parseEventData e = .ok .unknownType ↔ e.type ∉ eventTypes)

theorem eventTypeOf_isSome {v : Text} : (eventTypeOf v).isSome ↔ v ∈ eventTypes := by
  unfold eventTypeOf eventTypes
  rw [List.find?_isSome, List.mem_map]
  simp

theorem eventTypeOf_eq_some {v : Text} {type : LinkEventType} (h : eventTypeOf v = some type) :
    type.text = v :=
  of_decide_eq_true (List.find?_some h :)

theorem inherited_of_member : ∀ v ∈ objectMembers, isTypeName v = true → v ∈ inheritedNames := by
  decide +kernel

theorem inherited_members : ∀ v ∈ inheritedNames, v ∈ objectMembers ∧ v ∉ eventTypes := by
  decide +kernel

/-- A name that is neither an event type nor inherited is unknown. -/
theorem parseEventData_of_unknown {e : RawEvent} (h : e.type ∉ eventTypes)
    (hin : e.type ∉ objectMembers) : parseEventData e = .ok .unknownType := by
  unfold parseEventData isEventType
  rw [if_pos (by simp [h, hin])]

theorem parseEventData_of_inherited {e : RawEvent} (h : e.type ∈ inheritedNames) :
    parseEventData e = .error .typeError := by
  obtain ⟨hmem, hnot⟩ := inherited_members _ h
  have hnone : eventTypeOf e.type = none := by
    rw [← Option.not_isSome_iff_eq_none, eventTypeOf_isSome]
    exact hnot
  unfold parseEventData isEventType
  rw [if_neg (by simp [hmem]), hnone]

theorem parseEventData_of_type {e : RawEvent} {type : LinkEventType}
    (h : eventTypeOf e.type = some type) : parseEventData e =
      .ok (match type.schema.parse e.data with
        | none => .invalid
        | some data => .event type data) := by
  have hmem : e.type ∈ eventTypes := eventTypeOf_isSome.1 (by rw [h]; rfl)
  unfold parseEventData isEventType
  rw [if_neg (by simp [hmem]), h]
  dsimp only
  cases type.schema.parse e.data <;> rfl

theorem parsesWell_iff {e : RawEvent} (hname : isTypeName e.type = true) :
    ParsesWell e ↔ e.type ∉ inheritedNames := by
  by_cases htype : e.type ∈ eventTypes
  · obtain ⟨type, ht⟩ := Option.isSome_iff_exists.mp (eventTypeOf_isSome.2 htype)
    have hnot : e.type ∉ inheritedNames := fun hin => (inherited_members _ hin).2 htype
    refine iff_of_true ⟨⟨_, parseEventData_of_type ht⟩, ?_⟩ hnot
    rw [parseEventData_of_type ht]
    refine iff_of_false (fun h => ?_) (not_not_intro htype)
    cases hp : type.schema.parse e.data <;> rw [hp] at h <;> cases h
  · by_cases hin : e.type ∈ objectMembers
    · have hinherited := inherited_of_member _ hin hname
      refine iff_of_false (fun h => ?_) (not_not_intro hinherited)
      obtain ⟨r, hr⟩ := h.1
      rw [parseEventData_of_inherited hinherited] at hr
      cases hr
    · have hnot : e.type ∉ inheritedNames := fun h => hin (inherited_members _ h).1
      refine iff_of_true ⟨⟨_, parseEventData_of_unknown htype hin⟩, ?_⟩ hnot
      exact iff_of_true (parseEventData_of_unknown htype hin) htype

/-! ## One event -/

/-- The link is there and not revoked. -/
def LinkTables.Active (t : LinkTables) (linkId : Text) : Prop :=
  ∃ link, t.link linkId = some link ∧ link.status = .active

/-- A type that can be read, and rows that the database takes. -/
def Readable (takes : RawEvent → Bool) (e : RawEvent) : Prop :=
  e.type ∉ inheritedNames ∧ takes e = true

theorem link_setLink {t : LinkTables} {linkId : Text} {f : WalletLink → WalletLink}
    (hf : ∀ l, (f l).id = l.id) :
    (t.setLink linkId f).link linkId = (t.link linkId).map f := by
  unfold LinkTables.link LinkTables.setLink
  dsimp only
  induction t.links with
  | nil => rfl
  | cons l ls ih =>
    rw [List.map_cons, List.find?_cons, List.find?_cons]
    by_cases hl : l.id = linkId
    · simp [hl, hf]
    · simp only [if_neg hl, decide_eq_false hl]
      exact ih

theorem Active.setLink {t : LinkTables} {linkId : Text} {f : WalletLink → WalletLink}
    (hf : ∀ l, (f l).id = l.id ∧ (f l).status = l.status) (h : t.Active linkId) :
    (t.setLink linkId f).Active linkId := by
  obtain ⟨link, hlink, hstatus⟩ := h
  exact ⟨f link, by rw [link_setLink fun l => (hf l).1, hlink]; rfl, (hf link).2.trans hstatus⟩

/-- An effect revokes no link and leaves the register of events alone. -/
theorem applyEvent_frame (t : LinkTables) (linkId : Text) (type : LinkEventType) (d : Value) (seq : ℤ) :
    (t.Active linkId → (applyEvent t linkId type d seq).Active linkId) ∧
      (applyEvent t linkId type d seq).events = t.events := by
  cases type with
  | orgUpdated => exact ⟨Active.setLink fun l => ⟨rfl, rfl⟩, rfl⟩
  | accountUpserted => exact ⟨id, rfl⟩
  | transferUpserted => exact ⟨id, rfl⟩
  | payoutUpserted => exact ⟨id, rfl⟩
  | destinationUpserted => exact ⟨id, rfl⟩
  | dayClosed =>
    refine ⟨fun h => ?_, rfl⟩
    exact Active.setLink (t := { t with balances := _ }) (fun l => ⟨rfl, rfl⟩) h
  | ceremonyRecorded => exact ⟨Active.setLink fun l => ⟨rfl, rfl⟩, rfl⟩
  | screeningListUpdated => exact ⟨Active.setLink fun l => ⟨rfl, rfl⟩, rfl⟩
  | alertRaised =>
    change (_ → (applyAlertRaised t linkId d).Active linkId) ∧
      (applyAlertRaised t linkId d).events = t.events
    unfold applyAlertRaised
    split <;> exact ⟨id, rfl⟩
  | alertResolved => exact ⟨id, rfl⟩
  | heartbeat => exact ⟨Active.setLink fun l => ⟨rfl, rfl⟩, rfl⟩

variable {sha256 : Bytes → Text} {takes : RawEvent → Bool}

theorem stored_append {t t' : LinkTables} {row : StoredEvent} (h : t'.events = t.events ++ [row])
    {id : Text} (hid : uuidText id ≠ row.eventId) : t'.stored id = t.stored id := by
  unfold LinkTables.stored
  rw [h, List.find?_append]
  simp [Ne.symm hid]

theorem stored_of_append {t t' : LinkTables} {row : StoredEvent}
    (h : t'.events = t.events ++ [row]) {id : Text} (hid : row.eventId = uuidText id) :
    t'.stored id ≠ none := by
  unfold LinkTables.stored
  rw [h, List.find?_append]
  simp [hid]

/-- What the receipt of one event says: it fails exactly where a new event cannot be read or
stored; otherwise it answers for this event, and what was known of others stays. -/
structure Received (sha256 : Bytes → Text) (t : LinkTables) (linkId : Text) (e : RawEvent)
    (t' : LinkTables) (v : Verdict) : Prop where
  id : v.id = e.id
  active : t'.Active linkId
  others : ∀ id, uuidText id ≠ uuidText e.id → t'.stored id = t.stored id
  recorded : t'.stored e.id ≠ none
  accepted : t.stored e.id = none → ∀ type data, eventTypeOf e.type = some type →
    type.schema.parse e.data = some data →
      t' = accept sha256 t linkId e type data ∧ v = ⟨e.id, .accepted, none⟩

variable (sha256 takes) in
theorem receiveEvent_spec {t : LinkTables} {linkId : Text} {e : RawEvent}
    (hname : isTypeName e.type = true) (hactive : t.Active linkId) :
    ((∃ x, receiveEvent sha256 takes t linkId e = .error x) ↔
      t.stored e.id = none ∧ ¬ Readable takes e) ∧
    ∀ t' v, receiveEvent sha256 takes t linkId e = .ok (t', v) →
      Received sha256 t linkId e t' v := by
  obtain ⟨link, hlink, hstatus⟩ := hactive
  unfold receiveEvent
  rw [hlink]
  dsimp only
  rw [if_neg (by simp [hstatus])]
  cases hstored : t.stored e.id with
  | some s =>
    have hsame : ∀ v : Verdict, v.id = e.id → Received sha256 t linkId e t v := fun v hv =>
      ⟨hv, ⟨link, hlink, hstatus⟩, fun _ _ => rfl, by rw [hstored]; nofun,
        fun h => by rw [hstored] at h; cases h⟩
    have hout : eventOutcome (some s) (eventHash sha256 e) ≠ .new := by
      unfold eventOutcome
      dsimp only
      split
      · nofun
      · split <;> nofun
    cases ho : eventOutcome (some s) (eventHash sha256 e) with
    | new => exact absurd ho hout
    | known result code =>
      refine ⟨iff_of_false nofun (fun h => by cases h.1), fun t' v h => ?_⟩
      cases h
      exact hsame _ rfl
    | conflict =>
      refine ⟨iff_of_false nofun (fun h => by cases h.1), fun t' v h => ?_⟩
      cases h
      exact hsame _ rfl
  | none =>
    have ho : eventOutcome none (eventHash sha256 e) = .new := rfl
    rw [ho]
    dsimp only
    by_cases hin : e.type ∈ inheritedNames
    · rw [parseEventData_of_inherited hin]
      exact ⟨iff_of_true ⟨_, rfl⟩ ⟨rfl, fun h => h.1 hin⟩, fun t' v h => by cases h⟩
    · obtain ⟨⟨parsed, hparsed⟩, -⟩ := (parsesWell_iff hname).mpr hin
      rw [hparsed]
      dsimp only
      by_cases htakes : takes e = true
      · have hok : ¬ (none = (none : Option StoredEvent) ∧ ¬ Readable takes e) :=
          fun h => h.2 ⟨hin, htakes⟩
        rw [if_neg (by simp [htakes])]
        cases parsed with
        | unknownType =>
          refine ⟨iff_of_false nofun hok, fun t' v h => ?_⟩
          cases h
          refine ⟨rfl, ⟨link, hlink, hstatus⟩, fun id hid => stored_append rfl hid,
            stored_of_append rfl rfl, ?_⟩
          intro _ type data h1 h2
          rw [parseEventData_of_type h1, h2] at hparsed
          cases hparsed
        | invalid =>
          refine ⟨iff_of_false nofun hok, fun t' v h => ?_⟩
          cases h
          refine ⟨rfl, ⟨link, hlink, hstatus⟩, fun id hid => stored_append rfl hid,
            stored_of_append rfl rfl, ?_⟩
          intro _ type data h1 h2
          rw [parseEventData_of_type h1, h2] at hparsed
          cases hparsed
        | event type data =>
          refine ⟨iff_of_false nofun hok, fun t' v h => ?_⟩
          cases h
          obtain ⟨hact, hevents⟩ := applyEvent_frame t linkId type data e.seq
          have hrow : (accept sha256 t linkId e type data).events =
              t.events ++ [storedRow sha256 linkId e .accepted none] := by
            change (applyEvent t linkId type data e.seq).events ++ _ = _
            rw [hevents]
          refine ⟨rfl, ?_, fun id hid => stored_append hrow hid,
            stored_of_append hrow rfl, ?_⟩
          · exact Active.setLink (fun l => ⟨rfl, rfl⟩) (hact ⟨link, hlink, hstatus⟩)
          · intro _ type' data' h1 h2
            rw [parseEventData_of_type h1, h2] at hparsed
            cases hparsed
            exact ⟨rfl, rfl⟩
      · rw [if_pos (by simpa using htakes)]
        exact ⟨iff_of_true ⟨_, rfl⟩ ⟨rfl, fun h => htakes h.2⟩, fun t' v h => by cases h⟩

/-! ## A batch -/

theorem receiveEvents_cons {t : LinkTables} {linkId : Text} {e : RawEvent} {es : List RawEvent}
    {t' : LinkTables} {v : Verdict} (h : receiveEvent sha256 takes t linkId e = .ok (t', v)) :
    receiveEvents sha256 takes t linkId (e :: es) =
      ((receiveEvents sha256 takes t' linkId es).1,
        (receiveEvents sha256 takes t' linkId es).2.map (v :: ·)) := by
  rw [receiveEvents, h]

/-- An event that is not recorded when its turn comes, behind the events of a list. UUIDs are equal
in small letters. -/
def NewAfter (t : LinkTables) (es : List RawEvent) (e : RawEvent) : Prop :=
  t.stored e.id = none ∧ ∀ d ∈ es, uuidText d.id ≠ uuidText e.id

theorem newAfter_cons {t t' : LinkTables} {linkId : Text} {d e : RawEvent} {es : List RawEvent}
    {v : Verdict} (h : Received sha256 t linkId d t' v) :
    NewAfter t (d :: es) e ↔ NewAfter t' es e := by
  unfold NewAfter
  by_cases hd : uuidText d.id = uuidText e.id
  · have hrec : t'.stored e.id ≠ none := by
      have hsame : t'.stored e.id = t'.stored d.id := by
        unfold LinkTables.stored
        rw [hd]
      rw [hsame]
      exact h.recorded
    simp [hd, hrec]
  · rw [h.others e.id (Ne.symm hd)]
    simp [hd]

/-- Each new event of a known type whose data its schema accepts is accepted and takes effect. -/
def TakesEffect (sha256 : Bytes → Text) (takes : RawEvent → Bool) (t : LinkTables) (linkId : Text)
    (es : List RawEvent) (vs : List Verdict) : Prop :=
  ∀ es₁ e es₂, es = es₁ ++ e :: es₂ → NewAfter t es₁ e →
    ∀ type data, eventTypeOf e.type = some type → type.schema.parse e.data = some data →
      vs[es₁.length]? = some ⟨e.id, .accepted, none⟩ ∧
      (receiveEvents sha256 takes t linkId (es₁ ++ [e])).1 =
        accept sha256 (receiveEvents sha256 takes t linkId es₁).1 linkId e type data

/-- Every new event of a list can be read and stored. -/
def AllReadable (takes : RawEvent → Bool) (t : LinkTables) (es : List RawEvent) : Prop :=
  ∀ es₁ e es₂, es = es₁ ++ e :: es₂ → NewAfter t es₁ e → Readable takes e

variable (sha256 takes) in
theorem receiveEvents_spec {linkId : Text} {es : List RawEvent}
    (hnames : ∀ e ∈ es, isTypeName e.type = true) :
    ∀ {t : LinkTables}, t.Active linkId →
    ((∃ x, (receiveEvents sha256 takes t linkId es).2 = .error x) ↔ ¬ AllReadable takes t es) ∧
    ∀ vs, (receiveEvents sha256 takes t linkId es).2 = .ok vs →
      vs.map (·.id) = es.map (·.id) ∧ TakesEffect sha256 takes t linkId es vs := by
  induction es with
  | nil =>
    intro t _
    refine ⟨iff_of_false nofun (fun h => h fun es₁ e es₂ he => by simp at he), fun vs h => ?_⟩
    cases h
    exact ⟨rfl, fun es₁ e es₂ h => by simp at h⟩
  | cons e es ih =>
    intro t hactive
    obtain ⟨hfail, hdone⟩ := receiveEvent_spec sha256 takes
      (hnames e List.mem_cons_self) hactive
    cases hr : receiveEvent sha256 takes t linkId e with
    | error x =>
      obtain ⟨hnew, hbad⟩ := hfail.mp ⟨x, hr⟩
      have heq : receiveEvents sha256 takes t linkId (e :: es) = (t, .error x) := by
        rw [receiveEvents, hr]
      rw [heq]
      refine ⟨iff_of_true ⟨x, rfl⟩ fun h => hbad ?_, nofun⟩
      exact h [] e es rfl ⟨hnew, nofun⟩
    | ok p =>
      obtain ⟨t', v⟩ := p
      have hgood : t.stored e.id = none → Readable takes e := fun hnew => by
        by_contra hbad
        obtain ⟨x, hx⟩ := hfail.mpr ⟨hnew, hbad⟩
        rw [hr] at hx
        cases hx
      have hone := hdone t' v hr
      obtain ⟨ihfail, ihdone⟩ := ih (fun d hd => hnames d (List.mem_cons_of_mem _ hd)) hone.active
      rw [receiveEvents_cons hr]
      constructor
      · have hrest : AllReadable takes t (e :: es) ↔ AllReadable takes t' es := by
          constructor
          · intro h es₁ d es₂ hsplit hnew
            exact h (e :: es₁) d es₂ (by rw [hsplit]; rfl) ((newAfter_cons hone).mpr hnew)
          · intro h es₁ d es₂ hsplit hnew
            cases es₁ with
            | nil =>
              obtain ⟨rfl, rfl⟩ := List.cons.inj hsplit
              exact hgood hnew.1
            | cons c es₁ =>
              obtain ⟨rfl, rfl⟩ := List.cons.inj hsplit
              exact h es₁ d es₂ rfl ((newAfter_cons hone).mp hnew)
        rw [hrest, ← ihfail]
        cases (receiveEvents sha256 takes t' linkId es).2 <;> simp [Except.map]
      · intro vs hvs
        cases hrest : (receiveEvents sha256 takes t' linkId es).2 with
        | error x => rw [hrest] at hvs; cases hvs
        | ok rest =>
          rw [hrest] at hvs
          cases hvs
          obtain ⟨hsame, happlied⟩ := ihdone rest hrest
          refine ⟨by rw [List.map_cons, List.map_cons, hone.id, hsame], ?_⟩
          intro es₁ d es₂ hsplit hnew type data h1 h2
          cases es₁ with
          | nil =>
            obtain ⟨rfl, rfl⟩ := List.cons.inj hsplit
            obtain ⟨ht', hv⟩ := hone.accepted hnew.1 type data h1 h2
            refine ⟨by rw [hv]; rfl, ?_⟩
            rw [List.nil_append, receiveEvents_cons hr]
            exact ht'
          | cons c es₁ =>
            obtain ⟨rfl, rfl⟩ := List.cons.inj hsplit
            obtain ⟨hverdict, htables⟩ :=
              happlied es₁ d es₂ rfl ((newAfter_cons hone).mp hnew) type data h1 h2
            refine ⟨hverdict, ?_⟩
            rw [List.cons_append, receiveEvents_cons hr, receiveEvents_cons hr]
            exact htables

/-- The batch is answered with one verdict for each event, in order, and its new valid events of
known types take effect. -/
def Answered (sha256 : Bytes → Text) (takes : RawEvent → Bool) (t : LinkTables) (link : WalletLink)
    (b : Batch) : Prop :=
  ∃ t' results, receiveBatch sha256 takes t link b = (t', .ok (.ok ⟨b.batchId, results⟩)) ∧
    results.map (·.id) = b.events.map (·.id) ∧
    TakesEffect sha256 takes t link.id b.events results

/-- A link that a batch is for. -/
structure BoundTo (t : LinkTables) (link : WalletLink) (b : Batch) : Prop where
  org : link.walletOrgId = some b.walletOrgId
  id : link.walletLinkId = some b.linkId
  active : t.Active link.id

theorem receiveBatch_of_bound {t : LinkTables} {link : WalletLink} {b : Batch}
    (h : BoundTo t link b) : receiveBatch sha256 takes t link b =
      ((receiveEvents sha256 takes t link.id b.events).1,
        (receiveEvents sha256 takes t link.id b.events).2.map fun results =>
          .ok ⟨b.batchId, results⟩) := by
  unfold receiveBatch
  rw [h.org]
  dsimp only
  rw [if_neg (by simp), if_neg (by simp [h.id])]

theorem answered_iff {t : LinkTables} {link : WalletLink} {b : Batch} (h : BoundTo t link b) :
    Answered sha256 takes t link b ↔ AllReadable takes t b.events := by
  obtain ⟨hfail, hdone⟩ := receiveEvents_spec sha256 takes
    (fun e he => (b.admitted e he).type) h.active
  rw [← not_iff_not, ← hfail]
  unfold Answered
  rw [receiveBatch_of_bound h]
  constructor
  · intro hno
    cases hr : (receiveEvents sha256 takes t link.id b.events).2 with
    | error x => exact ⟨x, rfl⟩
    | ok results =>
      obtain ⟨hids, happlied⟩ := hdone results hr
      exact absurd ⟨_, results, by rw [hr]; rfl, hids, happlied⟩ hno
  · rintro ⟨x, hx⟩ ⟨t', results, heq, -⟩
    rw [hx] at heq
    cases heq

/-- An event whose type every object has. -/
def constructorEvent : RawEvent :=
  ⟨js "7f0d2b9e-5c1a-4f7e-9a38-2f4f1f0a6b01", 1, js "constructor",
    js "2026-03-02T08:00:00.000Z", .obj []⟩

def heartbeatEvent : RawEvent :=
  ⟨js "7f0d2b9e-5c1a-4f7e-9a38-2f4f1f0a6b02", 2, js "heartbeat",
    js "2026-03-02T08:00:00.000Z", .obj (named
      [("at", .text "2026-03-02T08:00:00.000Z"), ("signer", .text "ready"), ("nodes", .arr []),
        ("pending", .int 0)])⟩

/-- An event of a later version of the contract. -/
def newerEvent : RawEvent :=
  ⟨js "7f0d2b9e-5c1a-4f7e-9a38-2f4f1f0a6b03", 3, js "invoice.created",
    js "2026-03-02T08:00:00.000Z", .obj []⟩

theorem constructorEvent_admitted : constructorEvent.Admitted :=
  ⟨by decide, by decide, by decide, by decide⟩

theorem heartbeatEvent_admitted : heartbeatEvent.Admitted :=
  ⟨by decide, by decide, by decide, by decide⟩

theorem newerEvent_admitted : newerEvent.Admitted :=
  ⟨by decide, by decide, by decide, by decide⟩

def sampleLink : WalletLink where
  id := js "link"
  status := .active
  walletOrgId := some (js "3d9a8a34-6c33-4b9c-8f50-6a1c1c8f8f01")
  walletLinkId := some (js "3d9a8a34-6c33-4b9c-8f50-6a1c1c8f8f02")
  walletOrgName := .null
  walletOrgSlug := .null
  custodyMode := .null
  isOperator := .null
  caspLicenceRef := .null
  lastSeq := 0
  lastDayClosed := none
  ceremony := .null
  sanctionsList := .null
  heartbeat := .null

/-- An organisation with one link and no event yet. -/
def sampleTables : LinkTables := ⟨[sampleLink], [], [], [], [], [], []⟩

def constructorBatch : Batch where
  walletOrgId := js "3d9a8a34-6c33-4b9c-8f50-6a1c1c8f8f01"
  linkId := js "3d9a8a34-6c33-4b9c-8f50-6a1c1c8f8f02"
  batchId := js "3d9a8a34-6c33-4b9c-8f50-6a1c1c8f8f03"
  sentAt := js "2026-03-02T08:00:01.000Z"
  events := [constructorEvent, heartbeatEvent]
  admitted := by
    intro e he
    rcases List.mem_cons.mp he with rfl | he
    · exact constructorEvent_admitted
    · rw [List.mem_singleton.mp he]
      exact heartbeatEvent_admitted
  count := by decide
  ascending := by decide
  ids := by decide

/-- An event of an unknown type after one of a known type. -/
def newerBatch : Batch where
  walletOrgId := js "3d9a8a34-6c33-4b9c-8f50-6a1c1c8f8f01"
  linkId := js "3d9a8a34-6c33-4b9c-8f50-6a1c1c8f8f02"
  batchId := js "3d9a8a34-6c33-4b9c-8f50-6a1c1c8f8f04"
  sentAt := js "2026-03-02T08:00:01.000Z"
  events := [heartbeatEvent, newerEvent]
  admitted := by
    intro e he
    rcases List.mem_cons.mp he with rfl | he
    · exact heartbeatEvent_admitted
    · rw [List.mem_singleton.mp he]
      exact newerEvent_admitted
  count := by decide
  ascending := by decide
  ids := by decide

/-- SHA-256 of the checksum text of `heartbeatEvent`. -/
def heartbeatHash : Bytes → Text :=
  fun _ => js "7987cda34592b04e2498fa94ea7e6dbf39115459aa26cc7de87d6618c4d5c4f8"

theorem sampleLink_bound : BoundTo sampleTables sampleLink constructorBatch :=
  ⟨rfl, rfl, sampleLink, rfl, rfl⟩

end Klick
