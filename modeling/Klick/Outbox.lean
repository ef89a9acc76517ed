-- The outbox of an organisation with everyone who writes and reads it:
-- transactions that emit events, new links, and runs of the sender
-- (`export/emit.ts`, `export/link-service.ts`, `export/sender.ts`).
import Klick.Sender
import Klick.UnknownEvents

open Js

namespace Klick

/-! ## Transactions and runs -/

/-- The transaction that holds the row of `org_settings`: its `export_seq`, and what it has written
and not committed. -/
structure OpenTx where
  id : ℕ
  seq : ℤ
  rows : List OutboxRow
  links : List KlickLink

/-- How far a run of `sendLink` has come. -/
inductive RunStage
  | linkRead
  | built (b : Built)

/-- A run with the row of its link as it read it. -/
structure SenderRun where
  link : KlickLink
  stage : RunStage

/-- What is committed, the transaction that holds the lock, and the runs of the sender. `born` and
`read` keep what no table does: from where on a link is sent to, and what its runs have read. -/
structure Outbox where
  exportSeq : ℤ
  rows : List OutboxRow
  links : List KlickLink
  holder : Option OpenTx
  runs : ℕ → Option SenderRun
  born : List (Text × ℤ)
  read : List (Text × OutboxRow)

namespace Outbox

def initial : Outbox := ⟨0, [], [], none, fun _ => none, [], []⟩

/-- The lock for a transaction; none means that it waits. -/
def lock (o : Outbox) (tx : ℕ) : Option OpenTx :=
  match o.holder with
  | none => some ⟨tx, o.exportSeq, [], []⟩
  | some t => if t.id = tx then some t else none

/-- `emitEvent`: the update of `org_settings` takes the lock. -/
def emit (o : Outbox) (tx : ℕ) (id : Text) (linkId : Option Text) (type occurredAt : Text)
    (data : Value) : Option Outbox :=
  (o.lock tx).map fun t =>
    { o with holder := some { t with
        seq := t.seq + 1
        rows := t.rows ++ [⟨id, linkId, t.seq + 1, type, occurredAt, data⟩] } }

def newLink (id : Text) (accountIds : Option (List Text)) (seq : ℤ) : KlickLink where
  id := id
  status := .active
  accountIds := accountIds
  backfilledAt := none
  ackedSeq := seq
  nextAttemptAt := none
  attempts := 0
  lastError := none
  pausedReason := none
  rejected := []

/-- `createLink`, whose `for update` takes the lock. The id is a new UUID. -/
def createLink (o : Outbox) (tx : ℕ) (id : Text) (accountIds : Option (List Text)) :
    Option Outbox :=
  match o.lock tx with
  | none => none
  | some t =>
    if (o.links ++ t.links).all fun l => l.id ≠ id then
      some { o with holder := some { t with links := t.links ++ [newLink id accountIds t.seq] } }
    else none

def commit (o : Outbox) (tx : ℕ) : Option Outbox :=
  match o.holder with
  | none => some o
  | some t =>
    if t.id = tx then
      some { o with
        exportSeq := t.seq
        rows := o.rows ++ t.rows
        links := o.links ++ t.links
        holder := none
        born := o.born ++ t.links.map fun l => (l.id, l.ackedSeq) }
    else some o

def rollback (o : Outbox) (tx : ℕ) : Option Outbox :=
  match o.holder with
  | none => some o
  | some t => if t.id = tx then some { o with holder := none } else some o

def link (o : Outbox) (id : Text) : Option KlickLink := o.links.find? fun l => l.id = id

/-- `update klick_links set … where id = linkId` -/
def updateLink (o : Outbox) (id : Text) (f : KlickLink → KlickLink) : Outbox :=
  { o with links := o.links.map fun l => if l.id = id then f l else l }

def setRun (o : Outbox) (run : ℕ) (r : Option SenderRun) : Outbox :=
  { o with runs := Function.update o.runs run r }

/-- The last statement of `completeBackfill`. -/
def backfilled (o : Outbox) (linkId : Text) (now : ℤ) : Option Outbox :=
  some (o.updateLink linkId fun l => { l with backfilledAt := some now })

inductive LinkAction
  | pause | resume | revoke
deriving DecidableEq, Repr

/-- `setLinkState`, where its checks pass. -/
def setState (what : LinkAction) (l : KlickLink) : KlickLink :=
  match what, l.status with
  | .pause, .active => { l with status := .paused, pausedReason := some (js "manual") }
  | .resume, .paused =>
    { l with
      status := .active
      pausedReason := none
      attempts := 0
      nextAttemptAt := none
      lastError := none }
  | .revoke, .active => { l with status := .revoked }
  | .revoke, .paused => { l with status := .revoked }
  | _, _ => l

/-- An event for all links, or for this one. -/
def addressed (r : OutboxRow) (linkId : Text) : Bool :=
  r.linkId = none || r.linkId = some linkId

/-- The events of a link that are next: in the order of `seq`, at most `MAX_BATCH`. -/
def page (o : Outbox) (l : KlickLink) : List OutboxRow :=
  ((o.rows.filter fun r => l.ackedSeq < r.seq && addressed r l.id).mergeSort
    fun a b => a.seq ≤ b.seq).take maxBatch

/-- The first read of a turn: the row of the link. -/
def readLink (o : Outbox) (run : ℕ) (linkId : Text) (now : ℤ) : Option Outbox :=
  match o.runs run, o.link linkId with
  | none, some l => if l.due now then some (o.setRun run (some ⟨l, .linkRead⟩)) else none
  | _, _ => none

/-- The second read: the events. The batch is built from them. -/
def readRows (o : Outbox) (run : ℕ) (head : BatchHead) : Option Outbox :=
  match o.runs run with
  | some ⟨l, .linkRead⟩ =>
    let rows := o.page l
    let o := { o with read := o.read ++ rows.map fun r => (l.id, r) }
    if rows = [] then some (o.setRun run none)
    else some (o.setRun run (some ⟨l, .built (buildBatch rows l.accountIds
      { head with linkId := l.id })⟩))
  | _ => none

/-- What ends a turn with a new mark: nothing to send, or an answer with its rejections. -/
def advance (o : Outbox) (run : ℕ) (rejected : List LinkRejection) : Option Outbox :=
  match o.runs run with
  | some ⟨l, .built b⟩ =>
    let set : KlickLink → KlickLink := fun m =>
      match b.body with
      | none => { m with ackedSeq := b.lastSeq }
      | some _ => m.acked b.lastSeq l.rejected rejected
    some ((o.updateLink l.id set).setRun run none)
  | _ => none

/-- A turn that fails: its link is tried again later, or paused. -/
def fail (o : Outbox) (run : ℕ) (now : ℤ) (error : Text) (pause : Option Text) : Option Outbox :=
  match o.runs run with
  | some ⟨l, .built _⟩ =>
    let set : KlickLink → KlickLink := fun m =>
      match pause with
      | none => m.retry l.attempts now error
      | some reason => m.pause l.attempts error reason
    some ((o.updateLink l.id set).setRun run none)
  | _ => none

/-- What happens next, in any order. -/
inductive Action
  | emit (tx : ℕ) (id : Text) (linkId : Option Text) (type occurredAt : Text) (data : Value)
  | createLink (tx : ℕ) (id : Text) (accountIds : Option (List Text))
  | commit (tx : ℕ)
  | rollback (tx : ℕ)
  | backfilled (linkId : Text) (now : ℤ)
  | setState (linkId : Text) (what : LinkAction)
  | readLink (run : ℕ) (linkId : Text) (now : ℤ)
  | readRows (run : ℕ) (head : BatchHead)
  | advance (run : ℕ) (rejected : List LinkRejection)
  | fail (run : ℕ) (now : ℤ) (error : Text) (pause : Option Text)
  | crash (run : ℕ)

/-- One action; none where it cannot happen now, as it waits for the lock. -/
def step (o : Outbox) : Action → Option Outbox
  | .emit tx id linkId type occurredAt data => o.emit tx id linkId type occurredAt data
  | .createLink tx id accountIds => o.createLink tx id accountIds
  | .commit tx => o.commit tx
  | .rollback tx => o.rollback tx
  | .backfilled linkId now => o.backfilled linkId now
  | .setState linkId what => some (o.updateLink linkId (setState what))
  | .readLink run linkId now => o.readLink run linkId now
  | .readRows run head => o.readRows run head
  | .advance run rejected => o.advance run rejected
  | .fail run now error pause => o.fail run now error pause
  | .crash run => some (o.setRun run none)

/-- The states that actions lead to. -/
inductive Reached : Outbox → Prop
  | initial : Reached initial
  | step {o o' : Outbox} {a : Action} : Reached o → o.step a = some o' → Reached o'

/-! ## What holds in every state -/

/-- Every event for a link from its birth on, up to a mark, has been read for it. -/
def Covered (o : Outbox) (linkId : Text) (mark : ℤ) : Prop :=
  ∀ start, (linkId, start) ∈ o.born → ∀ r ∈ o.rows, addressed r linkId = true →
    start < r.seq → r.seq ≤ mark → (linkId, r) ∈ o.read

/-- A mark that a link may have. -/
structure Mark (o : Outbox) (linkId : Text) (mark : ℤ) : Prop where
  le : mark ≤ o.exportSeq
  covered : o.Covered linkId mark

/-- What the holder of the lock has written lies above everything committed. -/
structure OpenTx.Above (o : Outbox) (t : OpenTx) : Prop where
  seq : o.exportSeq ≤ t.seq
  ascending : t.rows.Pairwise fun a b => a.seq < b.seq
  rows : ∀ r ∈ t.rows, o.exportSeq < r.seq ∧ r.seq ≤ t.seq
  links : ∀ l ∈ t.links, o.exportSeq ≤ l.ackedSeq ∧ l.ackedSeq ≤ t.seq
  fresh : ∀ l ∈ t.links, ∀ m ∈ o.links, m.id ≠ l.id
  distinct : (t.links.map (·.id)).Nodup

structure Inv (o : Outbox) : Prop where
  ascending : o.rows.Pairwise fun a b => a.seq < b.seq
  rows : ∀ r ∈ o.rows, r.seq ≤ o.exportSeq
  links : ∀ l ∈ o.links, o.Mark l.id l.ackedSeq
  known : ∀ p ∈ o.born, ∃ l ∈ o.links, l.id = p.1
  read : ∀ p ∈ o.read, p.2.seq ≤ o.exportSeq
  linkRead : ∀ run r, o.runs run = some r → o.Mark r.link.id r.link.ackedSeq
  built : ∀ run r b, o.runs run = some r → r.stage = .built b → o.Mark r.link.id b.lastSeq
  holder : ∀ t, o.holder = some t → OpenTx.Above o t

variable {o o' : Outbox}

theorem initial_inv : Inv initial := by
  refine ⟨List.Pairwise.nil, ?_, ?_, ?_, ?_, ?_, ?_, ?_⟩
  · exact fun r hr => absurd hr List.not_mem_nil
  · exact fun l hl => absurd hl List.not_mem_nil
  · exact fun p hp => absurd hp List.not_mem_nil
  · exact fun p hp => absurd hp List.not_mem_nil
  · exact fun run r hr => nomatch hr
  · exact fun run r b hr => nomatch hr
  · exact fun t ht => nomatch ht

/-! ## What the steps keep -/

/-- A mark stays one where the committed events and the births are the same. -/
theorem Mark.same {linkId : Text} {mark : ℤ} (h : o.Mark linkId mark)
    (hseq : o'.exportSeq = o.exportSeq) (hrows : o'.rows = o.rows) (hborn : o'.born = o.born)
    (hread : ∀ p ∈ o.read, p ∈ o'.read) : o'.Mark linkId mark := by
  refine ⟨hseq ▸ h.le, fun start hstart r hr haddr h1 h2 => ?_⟩
  rw [hborn] at hstart
  rw [hrows] at hr
  exact hread _ (h.covered start hstart r hr haddr h1 h2)

/-- What only the holder of the lock does changes nothing that is committed. -/
theorem Inv.withHolder {t : Option OpenTx} (h : Inv o)
    (ht : ∀ t', t = some t' → OpenTx.Above o t') : Inv { o with holder := t } where
  ascending := h.ascending
  rows := h.rows
  links := fun l hl => (h.links l hl).same rfl rfl rfl fun _ => id
  known := h.known
  read := h.read
  linkRead := fun run r hr => (h.linkRead run r hr).same rfl rfl rfl fun _ => id
  built := fun run r b hr hb => (h.built run r b hr hb).same rfl rfl rfl fun _ => id
  holder := fun t' ht' => ⟨(ht t' ht').seq, (ht t' ht').ascending, (ht t' ht').rows,
    (ht t' ht').links, (ht t' ht').fresh, (ht t' ht').distinct⟩

theorem lock_above (h : Inv o) {tx : ℕ} {t : OpenTx} (ht : o.lock tx = some t) :
    OpenTx.Above o t := by
  unfold lock at ht
  cases hh : o.holder with
  | none =>
    rw [hh] at ht
    cases ht
    refine ⟨le_refl _, .nil, ?_, ?_, ?_, List.nodup_nil⟩
    · exact fun r hr => absurd hr List.not_mem_nil
    · exact fun l hl => absurd hl List.not_mem_nil
    · exact fun l hl => absurd hl List.not_mem_nil
  | some t' =>
    rw [hh] at ht
    dsimp only at ht
    split at ht
    · cases ht
      exact h.holder _ hh
    · cases ht

theorem inv_emit (h : Inv o) {tx : ℕ} {id : Text} {linkId : Option Text} {type occurredAt : Text}
    {data : Value} (hs : o.emit tx id linkId type occurredAt data = some o') : Inv o' := by
  unfold emit at hs
  rw [Option.map_eq_some_iff] at hs
  obtain ⟨t, ht, rfl⟩ := hs
  have ha := lock_above h ht
  apply h.withHolder
  intro t' ht'
  cases ht'
  refine ⟨?_, ?_, ?_, ?_, ha.fresh, ha.distinct⟩
  · exact ha.seq.trans (by simp)
  · apply List.pairwise_append.mpr
    refine ⟨ha.ascending, List.pairwise_singleton _ _, fun a hrow b hb => ?_⟩
    rw [List.mem_singleton.mp hb]
    have := (ha.rows a hrow).2
    dsimp only
    omega
  · intro r hr
    rcases List.mem_append.mp hr with hr | hr
    · obtain ⟨h1, h2⟩ := ha.rows r hr
      exact ⟨h1, by dsimp only; omega⟩
    · rw [List.mem_singleton.mp hr]
      have := ha.seq
      exact ⟨by dsimp only; omega, le_refl _⟩
  · intro l hl
    obtain ⟨h1, h2⟩ := ha.links l hl
    exact ⟨h1, by dsimp only; omega⟩

theorem inv_createLink (h : Inv o) {tx : ℕ} {id : Text} {accountIds : Option (List Text)}
    (hs : o.createLink tx id accountIds = some o') : Inv o' := by
  unfold createLink at hs
  cases ht : o.lock tx with
  | none => rw [ht] at hs; cases hs
  | some t =>
    rw [ht] at hs
    dsimp only at hs
    split at hs
    · rename_i hfresh
      cases hs
      have ha := lock_above h ht
      rw [List.all_eq_true] at hfresh
      have hnew : ∀ l ∈ o.links ++ t.links, l.id ≠ id := fun l hl => of_decide_eq_true (hfresh l hl)
      apply h.withHolder
      intro t' ht'
      cases ht'
      refine ⟨ha.seq, ha.ascending, ha.rows, ?_, ?_, ?_⟩
      · intro l hl
        rcases List.mem_append.mp hl with hl | hl
        · exact ha.links l hl
        · rw [List.mem_singleton.mp hl]
          exact ⟨ha.seq, le_refl _⟩
      · intro l hl m hm
        rcases List.mem_append.mp hl with hl | hl
        · exact ha.fresh l hl m hm
        · rw [List.mem_singleton.mp hl]
          exact hnew m (List.mem_append_left _ hm)
      · rw [List.map_append]
        refine List.Nodup.append ha.distinct (List.nodup_singleton _) ?_
        intro a hal hb
        obtain ⟨l, hl, rfl⟩ := List.mem_map.mp hal
        exact hnew l (List.mem_append_right _ hl) (List.mem_singleton.mp hb)
    · cases hs

/-- What is committed next lies above every mark, so no mark passes over it. -/
theorem Mark.commit {linkId : Text} {mark : ℤ} (h : o.Mark linkId mark) {t : OpenTx}
    (ht : OpenTx.Above o t) : Mark { o with
      exportSeq := t.seq
      rows := o.rows ++ t.rows
      links := o.links ++ t.links
      holder := none
      born := o.born ++ t.links.map fun l => (l.id, l.ackedSeq) } linkId mark := by
  refine ⟨h.le.trans ht.seq, fun start hstart r hr haddr h1 h2 => ?_⟩
  have hmark := h.le
  rcases List.mem_append.mp hr with hr | hr
  · rcases List.mem_append.mp hstart with hstart | hstart
    · exact h.covered start hstart r hr haddr h1 h2
    · obtain ⟨l, hl, heq⟩ := List.mem_map.mp hstart
      cases heq
      have := (ht.links l hl).1
      omega
  · have := (ht.rows r hr).1
    omega

theorem inv_commit (h : Inv o) {tx : ℕ} (hs : o.commit tx = some o') : Inv o' := by
  unfold commit at hs
  cases hh : o.holder with
  | none =>
    rw [hh] at hs
    cases hs
    exact h
  | some t =>
    rw [hh] at hs
    dsimp only at hs
    split at hs
    · cases hs
      have ht := h.holder t hh
      constructor
      · apply List.pairwise_append.mpr
        refine ⟨h.ascending, ht.ascending, fun a ha b hb => ?_⟩
        have h1 := h.rows a ha
        have h2 := (ht.rows b hb).1
        omega
      · intro r hr
        rcases List.mem_append.mp hr with hr | hr
        · exact (h.rows r hr).trans ht.seq
        · exact (ht.rows r hr).2
      · intro l hl
        rcases List.mem_append.mp hl with hl | hl
        · exact (h.links l hl).commit ht
        · refine ⟨(ht.links l hl).2, fun start hstart r _ _ h1 h2 => ?_⟩
          rcases List.mem_append.mp hstart with hstart | hstart
          · obtain ⟨m, hm, heq⟩ := h.known _ hstart
            exact absurd heq (ht.fresh l hl m hm)
          · obtain ⟨m, hm, heq⟩ := List.mem_map.mp hstart
            have hid : m.id = l.id := congrArg Prod.fst heq
            have hml := List.inj_on_of_nodup_map ht.distinct hm hl hid
            subst hml
            have hstart' : m.ackedSeq = start := congrArg Prod.snd heq
            omega
      · intro p hp
        rcases List.mem_append.mp hp with hp | hp
        · obtain ⟨l, hl, heq⟩ := h.known p hp
          exact ⟨l, List.mem_append_left _ hl, heq⟩
        · obtain ⟨l, hl, heq⟩ := List.mem_map.mp hp
          exact ⟨l, List.mem_append_right _ hl, by rw [← heq]⟩
      · exact fun p hp => (h.read p hp).trans ht.seq
      · exact fun run r hr => (h.linkRead run r hr).commit ht
      · exact fun run r b hr hb => (h.built run r b hr hb).commit ht
      · nofun
    · cases hs
      exact h

/-! ## Runs -/

theorem mem_page {l : KlickLink} {r : OutboxRow} (h : r ∈ o.page l) :
    r ∈ o.rows ∧ l.ackedSeq < r.seq ∧ addressed r l.id = true := by
  have hr := List.mem_of_mem_take h
  rw [List.mem_mergeSort, List.mem_filter, Bool.and_eq_true, decide_eq_true_eq] at hr
  exact hr

theorem page_eq (h : o.rows.Pairwise fun a b => a.seq < b.seq) (l : KlickLink) :
    o.page l = (o.rows.filter fun r => l.ackedSeq < r.seq && addressed r l.id).take maxBatch := by
  unfold page
  rw [List.mergeSort_of_pairwise]
  apply (h.filter _).imp
  intro a b hab
  simp only [decide_eq_true_eq]
  omega

theorem page_ascending (h : o.rows.Pairwise fun a b => a.seq < b.seq) (l : KlickLink) :
    (o.page l).Pairwise fun a b => a.seq < b.seq := by
  rw [page_eq h]
  exact (h.filter _).take

/-- A page leaves out nothing that comes before one of its events. -/
theorem mem_page_of_le (h : o.rows.Pairwise fun a b => a.seq < b.seq) {l : KlickLink}
    {r x : OutboxRow} (hr : r ∈ o.rows) (haddr : addressed r l.id = true)
    (hmark : l.ackedSeq < r.seq) (hx : x ∈ o.page l) (hle : r.seq ≤ x.seq) : r ∈ o.page l := by
  rw [page_eq h] at hx ⊢
  refine mem_take_of_le (h.filter _) ?_ hx hle
  rw [List.mem_filter]
  exact ⟨hr, by simp [hmark, haddr]⟩

/-- The mark of a built batch is the `seq` of an event of its page. -/
theorem lastSeq_buildBatch {rows : List OutboxRow} (h : rows ≠ [])
    (accountIds : Option (List Text)) (head : BatchHead) :
    ∃ r ∈ rows, (buildBatch rows accountIds head).lastSeq = r.seq := by
  obtain ⟨k, hk1, hk2, heq⟩ := buildBatch_eq h accountIds head
  have hne : rows.take k ≠ [] := by
    intro hnil
    have hlen := congrArg List.length hnil
    rw [List.length_take, List.length_nil] at hlen
    omega
  obtain ⟨r, hr, hseq⟩ := lastSeq_batchOf hne accountIds head
  exact ⟨r, List.mem_of_mem_take hr, by rw [heq, hseq]⟩

theorem runs_setRun {run i : ℕ} {r : Option SenderRun} {x : SenderRun}
    (h : (o.setRun run r).runs i = some x) : (i = run ∧ r = some x) ∨ o.runs i = some x := by
  unfold setRun at h
  by_cases hi : i = run
  · subst hi
    exact .inl ⟨rfl, by simpa using h⟩
  · exact .inr (by simpa [hi] using h)

/-- A run that stands with marks it may have keeps the invariant. -/
theorem Inv.setRun (h : Inv o) (run : ℕ) {r : Option SenderRun}
    (hr : ∀ x, r = some x → o.Mark x.link.id x.link.ackedSeq ∧
      ∀ b, x.stage = .built b → o.Mark x.link.id b.lastSeq) : Inv (o.setRun run r) where
  ascending := h.ascending
  rows := h.rows
  links := fun l hl => (h.links l hl).same rfl rfl rfl fun _ => id
  known := h.known
  read := h.read
  linkRead := by
    intro i x hx
    rcases runs_setRun hx with ⟨-, hrun⟩ | hrun
    · exact (hr x hrun).1.same rfl rfl rfl fun _ => id
    · exact (h.linkRead i x hrun).same rfl rfl rfl fun _ => id
  built := by
    intro i x b hx hb
    rcases runs_setRun hx with ⟨-, hrun⟩ | hrun
    · exact ((hr x hrun).2 b hb).same rfl rfl rfl fun _ => id
    · exact (h.built i x b hrun hb).same rfl rfl rfl fun _ => id
  holder := fun t ht => ⟨(h.holder t ht).seq, (h.holder t ht).ascending, (h.holder t ht).rows,
    (h.holder t ht).links, (h.holder t ht).fresh, (h.holder t ht).distinct⟩

/-- A run that ends leaves nothing to keep. -/
theorem Inv.endRun (h : Inv o) (run : ℕ) : Inv (o.setRun run none) := by
  apply h.setRun
  intro x hx
  cases hx

/-- An update of a link that leaves it its id and gives it a mark it may have. -/
theorem Inv.updateLink (h : Inv o) {id : Text} {f : KlickLink → KlickLink}
    (hid : ∀ l, (f l).id = l.id)
    (hf : ∀ l ∈ o.links, l.id = id → o.Mark l.id (f l).ackedSeq) : Inv (o.updateLink id f) where
  ascending := h.ascending
  rows := h.rows
  links := by
    intro l hl
    obtain ⟨m, hm, rfl⟩ := List.mem_map.mp hl
    by_cases hmid : m.id = id
    · rw [if_pos hmid, hid]
      exact (hf m hm hmid).same rfl rfl rfl fun _ hp => hp
    · rw [if_neg hmid]
      exact (h.links m hm).same rfl rfl rfl fun _ hp => hp
  known := by
    intro p hp
    obtain ⟨l, hl, heq⟩ := h.known p hp
    refine ⟨_, List.mem_map_of_mem hl, ?_⟩
    by_cases hlid : l.id = id
    · rw [if_pos hlid, hid, heq]
    · rw [if_neg hlid, heq]
  read := h.read
  linkRead := fun run r hr => (h.linkRead run r hr).same rfl rfl rfl fun _ hp => hp
  built := fun run r b hr hb => (h.built run r b hr hb).same rfl rfl rfl fun _ hp => hp
  holder := by
    intro t ht
    obtain ⟨h1, h2, h3, h4, h5, h6⟩ := h.holder t ht
    refine ⟨h1, h2, h3, h4, ?_, h6⟩
    intro l hl m hm
    obtain ⟨m', hm', rfl⟩ := List.mem_map.mp hm
    by_cases hmid : m'.id = id
    · rw [if_pos hmid, hid]
      exact h5 l hl m' hm'
    · rw [if_neg hmid]
      exact h5 l hl m' hm'

theorem mem_of_link {id : Text} {l : KlickLink} (h : o.link id = some l) : l ∈ o.links ∧ l.id = id :=
  ⟨List.mem_of_find?_eq_some h, of_decide_eq_true (List.find?_some h :)⟩

theorem inv_readLink (h : Inv o) {run : ℕ} {linkId : Text} {now : ℤ}
    (hs : o.readLink run linkId now = some o') : Inv o' := by
  unfold readLink at hs
  split at hs
  · rename_i l _ hl
    split at hs
    · cases hs
      apply h.setRun
      intro x hx
      cases hx
      exact ⟨h.links l (mem_of_link hl).1, nofun⟩
    · cases hs
  · cases hs

/-- Where a run has read the next events, the mark of its batch passes over none. -/
theorem inv_readRows (h : Inv o) {run : ℕ} {head : BatchHead}
    (hs : o.readRows run head = some o') : Inv o' := by
  unfold readRows at hs
  split at hs
  · rename_i l hrun
    have hmark := h.linkRead run _ hrun
    have hread : Inv { o with read := o.read ++ (o.page l).map fun r => (l.id, r) } := by
      have hmono : ∀ p ∈ o.read, p ∈ o.read ++ (o.page l).map fun r => (l.id, r) :=
        fun p hp => List.mem_append_left _ hp
      refine ⟨h.ascending, h.rows, fun m hm => (h.links m hm).same rfl rfl rfl hmono, h.known, ?_,
        fun i x hx => (h.linkRead i x hx).same rfl rfl rfl hmono,
        fun i x b hx hb => (h.built i x b hx hb).same rfl rfl rfl hmono, fun t ht => ?_⟩
      · intro p hp
        rcases List.mem_append.mp hp with hp | hp
        · exact h.read p hp
        · obtain ⟨r, hr, rfl⟩ := List.mem_map.mp hp
          exact h.rows r (mem_page hr).1
      · obtain ⟨h1, h2, h3, h4, h5, h6⟩ := h.holder t ht
        exact ⟨h1, h2, h3, h4, h5, h6⟩
    dsimp only at hs
    by_cases hnil : o.page l = []
    · rw [if_pos hnil] at hs
      cases hs
      exact hread.endRun run
    · rw [if_neg hnil] at hs
      cases hs
      apply hread.setRun
      intro x hx
      cases hx
      refine ⟨hread.linkRead run ⟨l, .linkRead⟩ hrun, fun b hb => ?_⟩
      cases hb
      obtain ⟨x, hx, hseq⟩ :=
        lastSeq_buildBatch hnil l.accountIds { head with linkId := l.id }
      rw [hseq]
      refine ⟨h.rows x (mem_page hx).1, fun start hstart r hr haddr h1 h2 => ?_⟩
      by_cases hold : r.seq ≤ l.ackedSeq
      · exact List.mem_append_left _ (hmark.covered start hstart r hr haddr h1 hold)
      · apply List.mem_append_right
        have hpage := mem_page_of_le h.ascending hr haddr (not_le.mp hold) hx h2
        exact List.mem_map.mpr ⟨r, hpage, rfl⟩
  · cases hs

theorem inv_advance (h : Inv o) {run : ℕ} {rejected : List LinkRejection}
    (hs : o.advance run rejected = some o') : Inv o' := by
  unfold advance at hs
  split at hs
  · rename_i l b hrun
    have hmark := h.built run _ b hrun rfl
    cases hs
    refine (h.updateLink ?_ ?_).endRun run
    · intro m
      cases b.body <;> rfl
    · intro m hm hid
      rw [hid]
      cases hb : b.body <;> exact hmark
  · cases hs

theorem inv_fail (h : Inv o) {run : ℕ} {now : ℤ} {error : Text} {pause : Option Text}
    (hs : o.fail run now error pause = some o') : Inv o' := by
  unfold fail at hs
  split at hs
  · rename_i l b hrun
    cases hs
    refine (h.updateLink ?_ ?_).endRun run
    · intro m
      cases pause <;> rfl
    · intro m hm _
      cases pause <;> exact h.links m hm
  · cases hs

theorem setState_same (what : LinkAction) (l : KlickLink) :
    (setState what l).id = l.id ∧ (setState what l).ackedSeq = l.ackedSeq := by
  unfold setState
  split <;> exact ⟨rfl, rfl⟩

theorem inv_step (h : Inv o) {a : Action} (hs : o.step a = some o') : Inv o' := by
  cases a with
  | emit tx id linkId type occurredAt data => exact inv_emit h hs
  | createLink tx id accountIds => exact inv_createLink h hs
  | commit tx => exact inv_commit h hs
  | rollback tx =>
    change o.rollback tx = some o' at hs
    unfold rollback at hs
    split at hs
    · cases hs
      exact h
    · split at hs
      · cases hs
        exact h.withHolder nofun
      · cases hs
        exact h
  | backfilled linkId now =>
    cases hs
    exact h.updateLink (fun _ => rfl) fun l hl _ => h.links l hl
  | setState linkId what =>
    cases hs
    refine h.updateLink (fun l => (setState_same what l).1) fun l hl _ => ?_
    rw [(setState_same what l).2]
    exact h.links l hl
  | readLink run linkId now => exact inv_readLink h hs
  | readRows run head => exact inv_readRows h hs
  | advance run rejected => exact inv_advance h hs
  | fail run now error pause => exact inv_fail h hs
  | crash run =>
    cases hs
    exact h.endRun run

theorem inv_reached (h : Reached o) : Inv o := by
  induction h with
  | initial => exact initial_inv
  | step _ hs ih => exact inv_step ih hs

/-! ## Nothing is skipped -/

/-- A step makes visible only what the holder of the lock has written. -/
theorem step_rows {a : Action} (hs : o.step a = some o') :
    o'.rows = o.rows ∨ ∃ t, o.holder = some t ∧ o'.rows = o.rows ++ t.rows := by
  cases a with
  | emit tx id linkId type occurredAt data =>
    obtain ⟨t, -, rfl⟩ := Option.map_eq_some_iff.mp hs
    exact .inl rfl
  | createLink tx id accountIds =>
    change o.createLink tx id accountIds = some o' at hs
    unfold createLink at hs
    split at hs
    · cases hs
    · split at hs
      · cases hs
        exact .inl rfl
      · cases hs
  | commit tx =>
    change o.commit tx = some o' at hs
    unfold commit at hs
    split at hs
    · cases hs
      exact .inl rfl
    · rename_i t hh
      split at hs
      · cases hs
        exact .inr ⟨t, hh, rfl⟩
      · cases hs
        exact .inl rfl
  | rollback tx =>
    change o.rollback tx = some o' at hs
    unfold rollback at hs
    split at hs
    · cases hs
      exact .inl rfl
    · split at hs <;> cases hs <;> exact .inl rfl
  | backfilled linkId now =>
    cases hs
    exact .inl rfl
  | setState linkId what =>
    cases hs
    exact .inl rfl
  | readLink run linkId now =>
    change o.readLink run linkId now = some o' at hs
    unfold readLink at hs
    split at hs
    · split at hs
      · cases hs
        exact .inl rfl
      · cases hs
    · cases hs
  | readRows run head =>
    change o.readRows run head = some o' at hs
    unfold readRows at hs
    split at hs
    · dsimp only at hs
      split at hs <;> cases hs <;> exact .inl rfl
    · cases hs
  | advance run rejected =>
    change o.advance run rejected = some o' at hs
    unfold advance at hs
    split at hs
    · cases hs
      exact .inl rfl
    · cases hs
  | fail run now error pause =>
    change o.fail run now error pause = some o' at hs
    unfold fail at hs
    split at hs
    · cases hs
      exact .inl rfl
    · cases hs
  | crash run =>
    cases hs
    exact .inl rfl

/-- The numbers written so far, committed or not. -/
def seqs (o : Outbox) : List ℤ := (o.rows ++ (o.holder.map (·.rows)).getD []).map (·.seq)

theorem seqs_nodup (h : Inv o) : o.seqs.Nodup := by
  unfold seqs
  apply List.Pairwise.imp (R := fun a b => a < b) fun hab => ne_of_lt hab
  apply List.pairwise_map.mpr
  cases hh : o.holder with
  | none =>
    change (o.rows ++ []).Pairwise _
    rw [List.append_nil]
    exact h.ascending
  | some t =>
    have ht := h.holder t hh
    refine List.pairwise_append.mpr ⟨h.ascending, ht.ascending, fun a ha b hb => ?_⟩
    have h1 := h.rows a ha
    have h2 := (ht.rows b hb).1
    omega

end Outbox

/-- An event that is committed before the only link is created. -/
def earlyRow : OutboxRow where
  id := js "7f0d2b9e-5c1a-4f7e-9a38-2f4f1f0a6b02"
  linkId := none
  seq := 1
  type := js "heartbeat"
  occurredAt := js "2026-03-02T08:00:00.000Z"
  data := heartbeatEvent.data

/-- The outbox with that event and, after it, the link. -/
def earlyOutbox : Outbox where
  exportSeq := 1
  rows := [earlyRow]
  links := [Outbox.newLink (js "3d9a8a34-6c33-4b9c-8f50-6a1c1c8f8f02") none 1]
  holder := none
  runs := fun _ => none
  born := [(js "3d9a8a34-6c33-4b9c-8f50-6a1c1c8f8f02", 1)]
  read := []

theorem earlyOutbox_reached : earlyOutbox.Reached := by
  have h1 := Outbox.Reached.initial.step (a := .emit 1 earlyRow.id none earlyRow.type
    earlyRow.occurredAt earlyRow.data) rfl
  have h2 := h1.step (a := .commit 1) rfl
  have h3 := h2.step (a := .createLink 2 (js "3d9a8a34-6c33-4b9c-8f50-6a1c1c8f8f02") none) rfl
  exact h3.step (a := .commit 2) rfl

end Klick
