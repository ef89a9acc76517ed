-- Runs of the storage clean-up. The deadline of an object counts from the time a destruction
-- or a search has read before it commits; a backup between the two, or a restore that brings
-- an old deadline back, lets an object go that a backup still counts on.
import Klick.StorageCleanup

open Js Interleaving

namespace Klick.Storage

/-! ## The rules -/

/-- The keys of the objects that there are. -/
def World.stored (w : World) : List ObjectKey := w.objects.map (·.key)

/-- What the database references is there, and what a backup references is there as long as the
backup is kept. -/
structure Sound (keepMs : ℤ) (w : World) : Prop where
  present : ∀ key ∈ w.db.refs, key ∈ w.stored
  kept : ∀ b ∈ w.backups, w.clock ≤ b.time + keepMs → ∀ key ∈ b.db.refs, key ∈ w.stored

instance (keepMs : ℤ) (w : World) : Decidable (Sound keepMs w) :=
  decidable_of_iff ((∀ key ∈ w.db.refs, key ∈ w.stored) ∧
      ∀ b ∈ w.backups, w.clock ≤ b.time + keepMs → ∀ key ∈ b.db.refs, key ∈ w.stored)
    ⟨fun h => ⟨h.1, h.2⟩, fun h => ⟨h.1, h.2⟩⟩

/-- A search queues what there was of an organisation, more than a day old, neither referenced
nor queued, and nothing else. -/
def QueuesOrphans (w : World) (l : Listing) (now : ℤ) (w' : World) : Prop :=
  ∀ key, (key ∈ w'.db.queue.map (·.storageKey) ∧ key ∉ w.db.queue.map (·.storageKey)) ↔
    (∃ o ∈ l.stock, o.key = key ∧ dayMs < now - o.lastModified) ∧
      key.organizationId = l.organizationId ∧ key ∉ w.db.refs ∧
      key ∉ w.db.queue.map (·.storageKey)

/-- A search goes through all organisations that there were when it began. -/
def OrphanRun.Covers (r : OrphanRun) : Prop :=
  r.organizations = r.handled ++ r.listing.toList.map (·.organizationId) ++ r.rest

/-- What the clean-up keeps and does: a deletion takes nothing that a row references, and a search
queues all orphans of an organisation. -/
structure Cleans (addYears : ℤ → ℤ → ℤ) (keepMs : ℤ) (w : World) : Prop where
  sound : Sound keepMs w
  deletes : ∀ i deleted w', step addYears keepMs w (.deleteObject i deleted) = some w' →
    ∀ key ∈ w.stored, key ∉ w'.stored → key ∉ w.db.refs
  queues : ∀ i newId w', step addYears keepMs w (.commitOrphans i newId) = some w' →
    ∃ r l, w.orphanRuns[i]? = some r ∧ r.listing = some l ∧ QueuesOrphans w l r.now w'
  covers : ∀ r ∈ w.orphanRuns, r.Covers

/-- The file that a destruction drops. -/
def destroyedFile (addYears : ℤ → ℤ → ℤ) (db : Db) (d : Destruction) : Option EvidenceRow :=
  match loadVersionRetention addYears db d.organizationId d.versionId d.now with
  | some (v, doc, .due) => v.fileEvidenceId.bind fun fileId =>
    if fileKept db d.organizationId v doc fileId then none
    else db.evidence.find? fun e => e.id = fileId && e.organizationId = d.organizationId
  | _ => none

/-- When an object is queued, each backup that references it was taken before the time from which
its deadline counts, and so it is for what a restored backup has queued. -/
def Undisturbed (addYears : ℤ → ℤ → ℤ) (keepMs : ℤ) (w : World) : Act → Prop
  | .commitDestruction i _ => ∀ d ∈ w.destructions[i]?, ∀ e ∈ destroyedFile addYears w.db d,
      ∀ key ∈ e.objectKey, ∀ b ∈ w.backups, key ∈ b.db.refs → b.time < d.now
  | .commitOrphans i _ => ∀ r ∈ w.orphanRuns[i]?, ∀ l ∈ r.listing,
      ∀ key ∈ orphansOf w.db l.organizationId l.listed r.now,
        ∀ b ∈ w.backups, key ∈ b.db.refs → b.time < r.now
  | .restore j => ∀ c ∈ w.backups[j]?, ∀ e ∈ c.db.queue, e.purgedAt = none →
      ∀ b ∈ w.backups, e.storageKey ∈ b.db.refs → b.time + keepMs < e.purgeAfter
  | _ => True

instance (addYears : ℤ → ℤ → ℤ) (keepMs : ℤ) (w : World) (a : Act) :
    Decidable (Undisturbed addYears keepMs w a) := by
  cases a <;> unfold Undisturbed <;> infer_instance

/-- The rows of a database have keys of their own, and what is queued is not referenced. -/
structure WellFormed (db : Db) : Prop where
  rows : ∀ e ∈ db.evidence, ∀ key, e.objectKey = some key → key = ⟨e.organizationId, e.id⟩
  queue : ∀ e ∈ db.queue, e.organizationId = e.storageKey.organizationId
  apart : ∀ e ∈ db.queue, e.storageKey ∉ db.refs

/-- Nothing is under way, and no backup was taken yet. -/
structure World.Fresh (w : World) : Prop where
  db : WellFormed w.db
  present : ∀ key ∈ w.db.refs, key ∈ w.stored
  known : ∀ key ∈ w.stored, key ∈ w.known
  queued : ∀ e ∈ w.db.queue, e.storageKey ∈ w.known
  uploads : w.uploads = []
  orphanRuns : w.orphanRuns = []
  purgeRuns : w.purgeRuns = []
  backups : w.backups = []

/-! ## References and the queue -/

theorem mem_refs {db : Db} {key : ObjectKey} :
    key ∈ db.refs ↔ ∃ e ∈ db.evidence, e.objectKey = some key := List.mem_filterMap

/-- The rows of the organisation of a key are all that may reference it. -/
theorem WellFormed.mem_referencedOf {db : Db} (h : WellFormed db) {orgId : Text} {key : ObjectKey}
    (hkey : key.organizationId = orgId) : key ∈ referencedOf db orgId ↔ key ∈ db.refs := by
  unfold referencedOf
  rw [mem_refs, List.mem_filterMap]
  constructor
  · rintro ⟨e, he, hek⟩
    exact ⟨e, (List.mem_filter.mp he).1, hek⟩
  · rintro ⟨e, he, hek⟩
    have hown := h.rows e he key hek
    refine ⟨e, List.mem_filter.mpr ⟨he, ?_⟩, hek⟩
    rw [hown] at hkey
    simpa using hkey

theorem WellFormed.mem_queuedOf {db : Db} (h : WellFormed db) {orgId : Text} {key : ObjectKey}
    (hkey : key.organizationId = orgId) :
    key ∈ queuedOf db orgId ↔ key ∈ db.queue.map (·.storageKey) := by
  unfold queuedOf
  rw [List.mem_map, List.mem_map]
  constructor
  · rintro ⟨e, he, hek⟩
    exact ⟨e, (List.mem_filter.mp he).1, hek⟩
  · rintro ⟨e, he, rfl⟩
    refine ⟨e, List.mem_filter.mpr ⟨he, ?_⟩, rfl⟩
    simpa using (h.queue e he).trans hkey

/-- A row is queued, or one of its organisation and key was. -/
theorem mem_enqueue {queue : List QueueRow} {row e : QueueRow} (h : e ∈ enqueue queue row) :
    e ∈ queue ∨ e = row := by
  unfold enqueue at h
  split_ifs at h
  · exact .inl h
  · rcases List.mem_append.mp h with h | h
    · exact .inl h
    · exact .inr (List.mem_singleton.mp h)

theorem subset_enqueue {queue : List QueueRow} (row : QueueRow) : queue ⊆ enqueue queue row := by
  intro e he
  unfold enqueue
  split_ifs
  · exact he
  · exact List.mem_append_left _ he

theorem key_mem_enqueue (queue : List QueueRow) (row : QueueRow) :
    row.storageKey ∈ (enqueue queue row).map (·.storageKey) := by
  unfold enqueue
  split_ifs with hany
  · obtain ⟨e, he, heq⟩ := List.any_eq_true.mp hany
    simp only [Bool.and_eq_true, decide_eq_true_eq] at heq
    exact List.mem_map.mpr ⟨e, he, heq.2⟩
  · exact List.mem_map.mpr ⟨row, List.mem_append_right _ (List.mem_singleton_self row), rfl⟩

theorem mem_enqueueAll {rows queue : List QueueRow} {e : QueueRow}
    (h : e ∈ rows.foldl enqueue queue) : e ∈ queue ∨ e ∈ rows := by
  induction rows generalizing queue with
  | nil => exact .inl h
  | cons row rest ih =>
    rcases ih h with h | h
    · rcases mem_enqueue h with h | rfl
      · exact .inl h
      · exact .inr List.mem_cons_self
    · exact .inr (List.mem_cons_of_mem _ h)

theorem subset_enqueueAll (rows : List QueueRow) {queue : List QueueRow} :
    queue ⊆ rows.foldl enqueue queue := by
  induction rows generalizing queue with
  | nil => exact List.Subset.refl _
  | cons row rest ih => exact List.Subset.trans (subset_enqueue row) ih

theorem keys_mem_enqueueAll {rows queue : List QueueRow} (row : QueueRow) (h : row ∈ rows) :
    row.storageKey ∈ (rows.foldl enqueue queue).map (·.storageKey) := by
  induction rows generalizing queue with
  | nil => cases h
  | cons r rest ih =>
    rcases List.mem_cons.mp h with rfl | h
    · exact (List.map_subset _ (subset_enqueueAll rest)) (key_mem_enqueue queue row)
    · exact ih h

/-! ## What a commit does to the database -/

theorem mem_orphansOf {db : Db} {orgId : Text} {listed : List StoredObject} {now : ℤ}
    {key : ObjectKey} : key ∈ orphansOf db orgId listed now ↔
      (∃ o ∈ listed, o.key = key ∧ dayMs < now - o.lastModified) ∧
        key ∉ referencedOf db orgId ∧ key ∉ queuedOf db orgId := by
  unfold orphansOf findOrphans
  simp only [List.mem_map, List.mem_filter, Bool.and_eq_true, decide_eq_true_eq]
  constructor
  · rintro ⟨o, ⟨⟨ho, hfree⟩, hold⟩, rfl⟩
    exact ⟨⟨o, ho, rfl, hold⟩, hfree⟩
  · rintro ⟨⟨o, ho, rfl, hold⟩, hfree⟩
    exact ⟨o, ⟨⟨ho, hfree⟩, hold⟩, rfl⟩

/-- **A search queues exactly the orphans of its listing.** -/
theorem queueOrphans_iff {db : Db} (h : WellFormed db) {orgId : Text} {stock : List StoredObject}
    {keepMs now : ℤ} {newId : ObjectKey → Text} (key : ObjectKey) :
    (key ∈ (queueOrphans keepMs db orgId (listObjects stock orgId) now newId).queue.map
        (·.storageKey) ∧ key ∉ db.queue.map (·.storageKey)) ↔
      (∃ o ∈ stock, o.key = key ∧ dayMs < now - o.lastModified) ∧
        key.organizationId = orgId ∧ key ∉ db.refs ∧ key ∉ db.queue.map (·.storageKey) := by
  constructor
  · rintro ⟨hin, hnot⟩
    obtain ⟨e, he, rfl⟩ := List.mem_map.mp hin
    rcases mem_enqueueAll he with he | he
    · exact absurd (List.mem_map_of_mem he) hnot
    · obtain ⟨key, hkey, rfl⟩ := List.mem_map.mp he
      obtain ⟨⟨o, ho, rfl, hold⟩, hfree, -⟩ := mem_orphansOf.1 hkey
      obtain ⟨ho, horg⟩ := List.mem_filter.mp ho
      have horg : o.key.organizationId = orgId := of_decide_eq_true horg
      exact ⟨⟨o, ho, rfl, hold⟩, horg, fun hin => hfree ((h.mem_referencedOf horg).mpr hin), hnot⟩
  · rintro ⟨⟨o, ho, rfl, hold⟩, horg, hfree, hnot⟩
    have hmem : o.key ∈ orphansOf db orgId (listObjects stock orgId) now := by
      refine mem_orphansOf.2 ⟨⟨o, List.mem_filter.mpr ⟨ho, by simpa using horg⟩, rfl, hold⟩, ?_, ?_⟩
      · exact fun hin => hfree ((h.mem_referencedOf horg).mp hin)
      · exact fun hin => hnot ((h.mem_queuedOf horg).mp hin)
    exact ⟨keys_mem_enqueueAll ⟨newId o.key, orgId, o.key, .orphan, none, purgeAfter keepMs now,
      none⟩ (List.mem_map_of_mem hmem), hnot⟩

/-- A destruction that drops a file drops all rows of its key, and queues the object. -/
inductive Dropped (keepMs : ℤ) (db : Db) (now : ℤ) (row : EvidenceRow) (db' : Db) : Prop
  | kept (hkey : row.objectKey = none) (hqueue : db'.queue = db.queue)
  | queued (key : ObjectKey) (newId : Text) (hkey : row.objectKey = some key)
    (hqueue : db'.queue = enqueue db.queue
      ⟨newId, row.organizationId, key, .documentDestroyed, some row.id, purgeAfter keepMs now, none⟩)

/-- What a destruction does to rows and queue. -/
theorem destroyVersion_effect {addYears : ℤ → ℤ → ℤ} {keepMs : ℤ} {db db' : Db} {d : Destruction}
    {newId : Text}
    (h : destroyVersion addYears keepMs db d.organizationId d.versionId newId d.now = some db') :
    (db'.evidence = db.evidence ∧ db'.queue = db.queue) ∨
      ∃ row, destroyedFile addYears db d = some row ∧ row ∈ db.evidence ∧
        db'.evidence = db.evidence.filter (·.id ≠ row.id) ∧ Dropped keepMs db d.now row db' := by
  unfold destroyVersion at h
  unfold destroyedFile
  cases hload : loadVersionRetention addYears db d.organizationId d.versionId d.now with
  | none =>
    rw [hload] at h
    cases h
  | some loaded =>
    obtain ⟨v, doc, state⟩ := loaded
    rw [hload] at h
    cases state
    case due =>
      dsimp only at h ⊢
      cases hfile : v.fileEvidenceId with
      | none =>
        rw [hfile] at h
        cases h
        exact .inl ⟨rfl, rfl⟩
      | some fileId =>
        rw [hfile] at h
        cases h
        rw [Option.bind_some]
        split_ifs
        · exact .inl ⟨rfl, rfl⟩
        · unfold dropFile
          split
          · exact .inl ⟨rfl, rfl⟩
          · rename_i row hfind
            have hid := List.find?_some hfind
            simp only [Bool.and_eq_true, decide_eq_true_eq] at hid
            refine .inr ⟨row, hfind, List.mem_of_find?_eq_some hfind, rfl, ?_⟩
            cases hkey : row.objectKey with
            | none => exact .kept hkey rfl
            | some key => exact .queued key newId hkey (by rw [hid.2])
    all_goals cases h

/-! ## The invariant -/

/-- An upload that may still commit has its object, which is young and not queued. -/
def MayCommit (w : World) (u : Upload) : Prop := w.clock ≤ u.putAt + dayMs

/-- A database has no use for an upload that is under way. -/
structure Apart (w : World) (db : Db) : Prop where
  refs : ∀ u ∈ w.uploads, u.key ∉ db.refs
  queue : ∀ u ∈ w.uploads, MayCommit w u → ∀ e ∈ db.queue, e.storageKey ≠ u.key
  knownRefs : ∀ key ∈ db.refs, key ∈ w.known
  knownQueue : ∀ e ∈ db.queue, e.storageKey ∈ w.known

/-- An entry lets its object go only when no backup counts on it. -/
def Late (keepMs : ℤ) (backups : List Backup) (e : QueueRow) : Prop :=
  ∀ b ∈ backups, e.storageKey ∈ b.db.refs → b.time + keepMs < e.purgeAfter

/-- A database that may be the current one. -/
structure Fits (keepMs : ℤ) (w : World) (db : Db) : Prop where
  wellFormed : WellFormed db
  apart : Apart w db
  present : ∀ key ∈ db.refs, key ∈ w.stored
  deadlines : ∀ e ∈ db.queue, e.purgedAt = none → Late keepMs w.backups e
  pending : ∀ r ∈ w.purgeRuns, ∀ e ∈ r.due, e.storageKey ∉ db.refs

structure Kept (keepMs : ℤ) (w : World) (b : Backup) : Prop where
  wellFormed : WellFormed b.db
  apart : Apart w b.db
  present : w.clock ≤ b.time + keepMs → ∀ key ∈ b.db.refs, key ∈ w.stored

structure Due (keepMs : ℤ) (w : World) (e : QueueRow) : Prop where
  known : e.storageKey ∈ w.known
  passed : e.purgeAfter ≤ w.clock
  late : Late keepMs w.backups e
  apart : ∀ u ∈ w.uploads, MayCommit w u → e.storageKey ≠ u.key

structure Uploading (w : World) (u : Upload) : Prop where
  known : u.key ∈ w.known
  present : MayCommit w u → u.key ∈ w.stored
  modified : ∀ o ∈ w.objects, o.key = u.key → o.lastModified = u.putAt

structure Listed (w : World) (r : OrphanRun) (l : Listing) : Prop where
  listed : l.listed = listObjects l.stock l.organizationId
  known : ∀ o ∈ l.stock, o.key ∈ w.known
  modified : ∀ u ∈ w.uploads, ∀ o ∈ l.stock, o.key = u.key → o.lastModified = u.putAt

structure Inv (keepMs : ℤ) (w : World) : Prop where
  db : Fits keepMs w w.db
  backups : ∀ b ∈ w.backups, Kept keepMs w b
  due : ∀ r ∈ w.purgeRuns, ∀ e ∈ r.due, Due keepMs w e
  uploads : ∀ u ∈ w.uploads, Uploading w u
  uploadKeys : (w.uploads.map (·.key)).Nodup
  objects : ∀ key ∈ w.stored, key ∈ w.known
  searches : ∀ r ∈ w.orphanRuns, r.now ≤ w.clock
  listings : ∀ r ∈ w.orphanRuns, ∀ l, r.listing = some l → Listed w r l

/-! ## Steps that take something away -/

/-- Time passes; uploads and purge runs go on or end; objects and backups stay. -/
structure Shrinks (w w' : World) : Prop where
  clock : w.clock ≤ w'.clock
  objects : w'.objects = w.objects
  known : w'.known = w.known
  backups : w'.backups = w.backups
  uploads : w'.uploads.Sublist w.uploads
  due : ∀ r' ∈ w'.purgeRuns, ∃ r ∈ w.purgeRuns, ∀ e ∈ r'.due, e ∈ r.due

theorem Shrinks.mayCommit {w w' : World} (h : Shrinks w w') {u : Upload} (hu : MayCommit w' u) :
    MayCommit w u := h.clock.trans hu

theorem Shrinks.stored {w w' : World} (h : Shrinks w w') : w'.stored = w.stored := by
  unfold World.stored
  rw [h.objects]

theorem Shrinks.apart {w w' : World} (h : Shrinks w w') {db : Db} (ha : Apart w db) :
    Apart w' db where
  refs u hu := ha.refs u (h.uploads.subset hu)
  queue u hu hmay := ha.queue u (h.uploads.subset hu) (h.mayCommit hmay)
  knownRefs := h.known ▸ ha.knownRefs
  knownQueue := h.known ▸ ha.knownQueue

theorem Shrinks.fits {keepMs : ℤ} {w w' : World} (h : Shrinks w w') {db : Db}
    (hf : Fits keepMs w db) : Fits keepMs w' db where
  wellFormed := hf.wellFormed
  apart := h.apart hf.apart
  present := h.stored ▸ hf.present
  deadlines := h.backups ▸ hf.deadlines
  pending r' hr' e he := by
    obtain ⟨r, hr, hsub⟩ := h.due r' hr'
    exact hf.pending r hr e (hsub e he)

theorem Shrinks.due_of {keepMs : ℤ} {w w' : World} (h : Shrinks w w') {e : QueueRow}
    (hd : Due keepMs w e) : Due keepMs w' e where
  known := h.known ▸ hd.known
  passed := hd.passed.trans h.clock
  late := h.backups ▸ hd.late
  apart u hu hmay := hd.apart u (h.uploads.subset hu) (h.mayCommit hmay)

theorem Shrinks.listed {w w' : World} (h : Shrinks w w') {r : OrphanRun} {l : Listing}
    (hl : Listed w r l) : Listed w' r l where
  listed := hl.listed
  known := h.known ▸ hl.known
  modified u hu := hl.modified u (h.uploads.subset hu)

/-- **The database becomes one that fits**, and nothing else is added. -/
theorem Inv.shrink {keepMs : ℤ} {w w' : World} (h : Inv keepMs w) (hs : Shrinks w w')
    (hdb : Fits keepMs w' w'.db) (hsearches : ∀ r ∈ w'.orphanRuns, r.now ≤ w'.clock)
    (hlistings : ∀ r ∈ w'.orphanRuns, ∀ l, r.listing = some l → Listed w' r l) : Inv keepMs w' where
  db := hdb
  backups b hb := by
    rw [hs.backups] at hb
    have hk := h.backups b hb
    exact ⟨hk.wellFormed, hs.apart hk.apart, fun hle => hs.stored ▸ hk.present (hs.clock.trans hle)⟩
  due r' hr' e he := by
    obtain ⟨r, hr, hsub⟩ := hs.due r' hr'
    exact hs.due_of (h.due r hr e (hsub e he))
  uploads u hu := by
    have hup := h.uploads u (hs.uploads.subset hu)
    refine ⟨hs.known ▸ hup.known, fun hmay => hs.stored ▸ hup.present (hs.mayCommit hmay), ?_⟩
    exact hs.objects ▸ hup.modified
  uploadKeys := h.uploadKeys.sublist (hs.uploads.map _)
  objects := by
    rw [hs.stored, hs.known]
    exact h.objects
  searches := hsearches
  listings := hlistings

/-- The searches go on as they are. -/
theorem Inv.shrinkRest {keepMs : ℤ} {w w' : World} (h : Inv keepMs w) (hs : Shrinks w w')
    (hdb : Fits keepMs w' w'.db) (hruns : ∀ r ∈ w'.orphanRuns, r ∈ w.orphanRuns) :
    Inv keepMs w' := by
  refine h.shrink hs hdb (fun r hr => (h.searches r (hruns r hr)).trans hs.clock) ?_
  exact fun r hr l hl => hs.listed (h.listings r (hruns r hr) l hl)

/-- Only rows and queue count. -/
theorem Fits.same {keepMs : ℤ} {w : World} {db db' : Db} (h : Fits keepMs w db)
    (hevidence : db'.evidence = db.evidence) (hqueue : db'.queue = db.queue) :
    Fits keepMs w db' := by
  have hrefs : db'.refs = db.refs := by
    unfold Db.refs
    rw [hevidence]
  refine ⟨⟨?_, ?_, ?_⟩, ⟨?_, ?_, ?_, ?_⟩, ?_, ?_, ?_⟩
  · exact hevidence ▸ h.wellFormed.rows
  · exact hqueue ▸ h.wellFormed.queue
  · exact hqueue ▸ hrefs ▸ h.wellFormed.apart
  · exact hrefs ▸ h.apart.refs
  · exact hqueue ▸ h.apart.queue
  · exact hrefs ▸ h.apart.knownRefs
  · exact hqueue ▸ h.apart.knownQueue
  · exact hrefs ▸ h.present
  · exact hqueue ▸ h.deadlines
  · exact hrefs ▸ h.pending

/-- Rows go, and the queue holds entries that were there or that let nothing go too early. -/
theorem Fits.requeue {keepMs : ℤ} {w : World} {db db' : Db} (h : Fits keepMs w db)
    (hevidence : db'.evidence.Sublist db.evidence)
    (hqueue : ∀ e' ∈ db'.queue,
      (∃ e ∈ db.queue, e.storageKey = e'.storageKey ∧ e.organizationId = e'.organizationId ∧
        (e'.purgedAt = none → e.purgedAt = none ∧ e.purgeAfter = e'.purgeAfter)) ∨
      (e'.organizationId = e'.storageKey.organizationId ∧ e'.storageKey ∉ db'.refs ∧
        e'.storageKey ∈ w.known ∧ Late keepMs w.backups e' ∧
        ∀ u ∈ w.uploads, MayCommit w u → e'.storageKey ≠ u.key)) : Fits keepMs w db' := by
  have hrefs : ∀ key ∈ db'.refs, key ∈ db.refs := by
    intro key hkey
    obtain ⟨e, he, hek⟩ := mem_refs.1 hkey
    exact mem_refs.2 ⟨e, hevidence.subset he, hek⟩
  refine ⟨⟨?_, ?_, ?_⟩, ⟨?_, ?_, ?_, ?_⟩, ?_, ?_, ?_⟩
  · exact fun e he => h.wellFormed.rows e (hevidence.subset he)
  · intro e' he'
    rcases hqueue e' he' with ⟨e, he, hkey, horg, -⟩ | ⟨horg, -⟩
    · rw [← horg, ← hkey]
      exact h.wellFormed.queue e he
    · exact horg
  · intro e' he'
    rcases hqueue e' he' with ⟨e, he, hkey, -⟩ | ⟨-, hfree, -⟩
    · rw [← hkey]
      exact fun hin => h.wellFormed.apart e he (hrefs _ hin)
    · exact hfree
  · exact fun u hu hin => h.apart.refs u hu (hrefs _ hin)
  · intro u hu hmay e' he'
    rcases hqueue e' he' with ⟨e, he, hkey, -⟩ | ⟨-, -, -, -, hother⟩
    · rw [← hkey]
      exact h.apart.queue u hu hmay e he
    · exact hother u hu hmay
  · exact fun key hkey => h.apart.knownRefs key (hrefs key hkey)
  · intro e' he'
    rcases hqueue e' he' with ⟨e, he, hkey, -⟩ | ⟨-, -, hknown, -⟩
    · rw [← hkey]
      exact h.apart.knownQueue e he
    · exact hknown
  · exact fun key hkey => h.present key (hrefs key hkey)
  · intro e' he' hunpurged b hb href
    rcases hqueue e' he' with ⟨e, he, hkey, -, hpurged⟩ | ⟨-, -, -, hlate, -⟩
    · obtain ⟨hnone, hafter⟩ := hpurged hunpurged
      rw [← hafter]
      exact h.deadlines e he hnone b hb (hkey ▸ href)
    · exact hlate b hb href
  · exact fun r hr e he hin => h.pending r hr e he (hrefs _ hin)

theorem old_entry {db : Db} {e : QueueRow} (he : e ∈ db.queue) :
    ∃ e₀ ∈ db.queue, e₀.storageKey = e.storageKey ∧ e₀.organizationId = e.organizationId ∧
      (e.purgedAt = none → e₀.purgedAt = none ∧ e₀.purgeAfter = e.purgeAfter) :=
  ⟨e, he, rfl, rfl, fun h => ⟨h, rfl⟩⟩

theorem Fits.markPurged {keepMs : ℤ} {w : World} {db : Db} (h : Fits keepMs w db) (now : ℤ)
    (ids : List Text) : Fits keepMs w { db with queue := Storage.markPurged now ids db.queue } := by
  refine h.requeue (.refl _) (fun e' he' => .inl ?_)
  rcases mem_updateRows.mp he' with ⟨e, he, -, rfl⟩ | ⟨he, -⟩
  · exact ⟨e, he, rfl, rfl, fun hnone => nomatch hnone⟩
  · exact old_entry he

/-- A file is destroyed, of which each backup was taken before. -/
theorem Fits.destroy {keepMs : ℤ} {w : World} {db db' : Db} (h : Fits keepMs w db) {now : ℤ}
    {row : EvidenceRow} (hrow : row ∈ db.evidence)
    (hevidence : db'.evidence = db.evidence.filter (·.id ≠ row.id))
    (hdropped : Dropped keepMs db now row db')
    (hbefore : ∀ key, row.objectKey = some key → ∀ b ∈ w.backups, key ∈ b.db.refs → b.time < now) :
    Fits keepMs w db' := by
  have hsub : db'.evidence.Sublist db.evidence := hevidence ▸ List.filter_sublist
  cases hdropped with
  | kept hkey hqueue => exact h.requeue hsub fun e he => .inl (old_entry (hqueue ▸ he))
  | queued key newId hkey hqueue =>
    have hown := h.wellFormed.rows row hrow key hkey
    have hin : key ∈ db.refs := mem_refs.2 ⟨row, hrow, hkey⟩
    refine h.requeue hsub fun e he => ?_
    rw [hqueue] at he
    rcases mem_enqueue he with he | rfl
    · exact .inl (old_entry he)
    · refine .inr ⟨by rw [hown], ?_, h.apart.knownRefs key hin, ?_, ?_⟩
      · intro hstill
        obtain ⟨e, he, hek⟩ := mem_refs.1 hstill
        rw [hevidence] at he
        obtain ⟨he, hid⟩ := List.mem_filter.mp he
        have hsame := h.wellFormed.rows e he key hek
        rw [hown, ObjectKey.mk.injEq] at hsame
        exact of_decide_eq_true hid hsame.2.symm
      · intro b hb href
        have := hbefore key hkey b hb href
        unfold purgeAfter
        dsimp only
        omega
      · exact fun u hu _ heq => h.apart.refs u hu (heq ▸ hin)

/-- Orphans are queued, of which each backup was taken before the search. -/
theorem Fits.queueOrphans {keepMs : ℤ} {w : World} {db : Db} (h : Fits keepMs w db)
    {r : OrphanRun} {l : Listing} (hlisted : Listed w r l) (hnow : r.now ≤ w.clock)
    (newId : ObjectKey → Text)
    (hbefore : ∀ key ∈ orphansOf db l.organizationId l.listed r.now,
      ∀ b ∈ w.backups, key ∈ b.db.refs → b.time < r.now) :
    Fits keepMs w (Storage.queueOrphans keepMs db l.organizationId l.listed r.now newId) := by
  refine h.requeue (.refl _) fun e he => ?_
  rcases mem_enqueueAll he with he | he
  · exact .inl (old_entry he)
  · obtain ⟨key, hkey, rfl⟩ := List.mem_map.mp he
    obtain ⟨⟨o, ho, rfl, hold⟩, hfree, -⟩ := mem_orphansOf.1 hkey
    rw [hlisted.listed] at ho
    obtain ⟨ho, horg⟩ := List.mem_filter.mp ho
    have horg : o.key.organizationId = l.organizationId := of_decide_eq_true horg
    refine .inr ⟨horg.symm, ?_, hlisted.known o ho, ?_, ?_⟩
    · exact fun hin => hfree ((h.wellFormed.mem_referencedOf horg).mpr hin)
    · intro b hb href
      have := hbefore o.key hkey b hb href
      unfold purgeAfter
      dsimp only
      omega
    · intro u hu hmay heq
      have := hlisted.modified u hu o ho heq
      unfold MayCommit at hmay
      omega

/-! ## Steps that add something -/

theorem Shrinks.refl (w : World) : Shrinks w w where
  clock := le_rfl
  objects := rfl
  known := rfl
  backups := rfl
  uploads := .refl _
  due r hr := ⟨r, hr, fun _ he => he⟩

theorem mem_erase_upload {w : World} (hkeys : (w.uploads.map (·.key)).Nodup) {i : ℕ} {u v : Upload}
    (hu : w.uploads[i]? = some u) (hv : v ∈ w.uploads.eraseIdx i) : v.key ≠ u.key := by
  obtain ⟨hi, rfl⟩ := List.getElem?_eq_some_iff.mp hu
  have hperm := (List.getElem_cons_eraseIdx_perm hi).map (·.key)
  have hnodup := hperm.nodup_iff.mpr hkeys
  rw [List.map_cons, List.nodup_cons] at hnodup
  exact fun heq => hnodup.1 (heq ▸ List.mem_map_of_mem hv)

/-- The database becomes one that fits. -/
theorem Inv.writeDb {keepMs : ℤ} {w : World} (h : Inv keepMs w) {db : Db}
    (hf : Fits keepMs w db) : Inv keepMs { w with db } := by
  have hs : Shrinks w { w with db } :=
    ⟨le_rfl, rfl, rfl, rfl, .refl _, fun r hr => ⟨r, hr, fun _ he => he⟩⟩
  exact h.shrinkRest hs (hs.fits hf) fun r hr => hr

/-- A search starts, lists or goes on. -/
theorem Inv.search {keepMs : ℤ} {w : World} (h : Inv keepMs w) {runs : List OrphanRun}
    (hnew : ∀ r ∈ runs, r ∈ w.orphanRuns ∨
      (r.now ≤ w.clock ∧ ∀ l, r.listing = some l → Listed w r l)) :
    Inv keepMs { w with orphanRuns := runs } := by
  have hs : Shrinks w { w with orphanRuns := runs } :=
    ⟨le_rfl, rfl, rfl, rfl, .refl _, fun r hr => ⟨r, hr, fun _ he => he⟩⟩
  refine h.shrink hs (hs.fits h.db) ?_ ?_
  · intro r hr
    rcases hnew r hr with hr | ⟨hnow, -⟩
    · exact h.searches r hr
    · exact hnow
  · intro r hr l hl
    rcases hnew r hr with hr | ⟨-, hlisted⟩
    · exact hs.listed (h.listings r hr l hl)
    · exact hs.listed (hlisted l hl)

/-- All that is stored is listed as it is. -/
theorem Inv.lists {keepMs : ℤ} {w : World} (h : Inv keepMs w) (r : OrphanRun) (orgId : Text) :
    Listed w r ⟨orgId, listObjects w.objects orgId, w.objects⟩ where
  listed := rfl
  known _ ho := h.objects _ (List.mem_map_of_mem ho)
  modified u hu := (h.uploads u hu).modified

/-- **An upload commits in time**: its object is there and in nobody's queue. -/
theorem Inv.commitUpload {keepMs : ℤ} {w : World} (h : Inv keepMs w) {i : ℕ} {u : Upload}
    (hu : w.uploads[i]? = some u) (hmay : MayCommit w u) :
    Inv keepMs { w with
      db := { w.db with evidence := w.db.evidence ++ [u.row] }
      uploads := w.uploads.eraseIdx i } := by
  have hmem := List.mem_of_getElem? hu
  have hrefs : ∀ key, key ∈ Db.refs { w.db with evidence := w.db.evidence ++ [u.row] } ↔
      key ∈ w.db.refs ∨ key = u.key := by
    intro key
    unfold Db.refs
    rw [List.filterMap_append, List.mem_append]
    simp [Upload.row, EvidenceRow.objectKey, eq_comm]
  refine h.shrinkRest ⟨le_rfl, rfl, rfl, rfl, List.eraseIdx_sublist _ _,
    fun r hr => ⟨r, hr, fun _ he => he⟩⟩ ?_ (fun r hr => hr)
  refine ⟨⟨?_, h.db.wellFormed.queue, ?_⟩, ⟨?_, ?_, ?_, h.db.apart.knownQueue⟩, ?_,
    h.db.deadlines, ?_⟩
  · intro e he key hkey
    rcases List.mem_append.mp he with he | he
    · exact h.db.wellFormed.rows e he key hkey
    · rw [List.mem_singleton.mp he] at hkey ⊢
      cases hkey
      rfl
  · intro e he hin
    rcases (hrefs _).mp hin with hin | heq
    · exact h.db.wellFormed.apart e he hin
    · exact h.db.apart.queue u hmem hmay e he heq
  · intro v hv hin
    rcases (hrefs _).mp hin with hin | heq
    · exact h.db.apart.refs v (List.mem_of_mem_eraseIdx hv) hin
    · exact mem_erase_upload h.uploadKeys hu hv heq
  · exact fun v hv hmayv => h.db.apart.queue v (List.mem_of_mem_eraseIdx hv) hmayv
  · intro key hin
    rcases (hrefs _).mp hin with hin | rfl
    · exact h.db.apart.knownRefs key hin
    · exact (h.uploads u hmem).known
  · intro key hin
    rcases (hrefs _).mp hin with hin | rfl
    · exact h.db.present key hin
    · exact (h.uploads u hmem).present hmay
  · intro r hr e he hin
    rcases (hrefs _).mp hin with hin | heq
    · exact h.db.pending r hr e he hin
    · exact (h.due r hr e he).apart u hmem hmay heq

theorem Apart.put {w : World} {db : Db} (h : Apart w db) {key : ObjectKey} (hnew : key ∉ w.known) :
    Apart { w with
      objects := ⟨key, w.clock⟩ :: w.objects
      known := key :: w.known
      uploads := ⟨key, w.clock⟩ :: w.uploads } db where
  refs u hu hin := by
    rcases List.mem_cons.mp hu with rfl | hu
    · exact hnew (h.knownRefs _ hin)
    · exact h.refs u hu hin
  queue u hu hmay e he heq := by
    have hin := h.knownQueue e he
    rw [heq] at hin
    rcases List.mem_cons.mp hu with rfl | hu
    · exact hnew hin
    · exact h.queue u hu hmay e he heq
  knownRefs k hk := List.mem_cons_of_mem _ (h.knownRefs k hk)
  knownQueue e he := List.mem_cons_of_mem _ (h.knownQueue e he)

theorem Inv.putObject {keepMs : ℤ} {w : World} (h : Inv keepMs w) {key : ObjectKey}
    (hnew : key ∉ w.known) :
    Inv keepMs { w with
      objects := ⟨key, w.clock⟩ :: w.objects
      known := key :: w.known
      uploads := ⟨key, w.clock⟩ :: w.uploads } where
  db := ⟨h.db.wellFormed, h.db.apart.put hnew,
    fun k hk => List.mem_cons_of_mem _ (h.db.present k hk), h.db.deadlines, h.db.pending⟩
  backups b hb := by
    have hk := h.backups b hb
    exact ⟨hk.wellFormed, hk.apart.put hnew,
      fun hle k hin => List.mem_cons_of_mem _ (hk.present hle k hin)⟩
  due r hr e he := by
    have hd := h.due r hr e he
    refine ⟨List.mem_cons_of_mem _ hd.known, hd.passed, hd.late, ?_⟩
    intro u hu hmay heq
    have hin := hd.known
    rw [heq] at hin
    rcases List.mem_cons.mp hu with rfl | hu
    · exact hnew hin
    · exact hd.apart u hu hmay heq
  uploads u hu := by
    rcases List.mem_cons.mp hu with rfl | hu
    · refine ⟨List.mem_cons_self, fun _ => List.mem_cons_self, ?_⟩
      intro o ho heq
      rcases List.mem_cons.mp ho with rfl | ho
      · rfl
      · exact absurd (h.objects _ (List.mem_map_of_mem ho)) (heq ▸ hnew)
    · have hup := h.uploads u hu
      refine ⟨List.mem_cons_of_mem _ hup.known, fun hmay => List.mem_cons_of_mem _ (hup.present hmay),
        ?_⟩
      intro o ho heq
      have hin := hup.known
      rw [← heq] at hin
      rcases List.mem_cons.mp ho with rfl | ho
      · exact absurd hin hnew
      · exact hup.modified o ho heq
  uploadKeys := by
    rw [List.map_cons, List.nodup_cons]
    refine ⟨fun hin => ?_, h.uploadKeys⟩
    obtain ⟨u, hu, heq⟩ := List.mem_map.mp hin
    have hknown := (h.uploads u hu).known
    rw [heq] at hknown
    exact hnew hknown
  objects k hk := by
    rcases List.mem_cons.mp hk with rfl | hk
    · exact List.mem_cons_self
    · exact List.mem_cons_of_mem _ (h.objects k hk)
  searches := h.searches
  listings r hr l hl := by
    have hlisted := h.listings r hr l hl
    refine ⟨hlisted.listed, fun o ho => List.mem_cons_of_mem _ (hlisted.known o ho), ?_⟩
    intro u hu o ho heq
    have hin := hlisted.known o ho
    rw [heq] at hin
    rcases List.mem_cons.mp hu with rfl | hu
    · exact absurd hin hnew
    · exact hlisted.modified u hu o ho heq

/-- **The next object of a purge run goes**: no row references it, and no backup that is kept. -/
theorem Inv.deleteObject {keepMs : ℤ} {w : World} (h : Inv keepMs w) {i : ℕ} {r : PurgeRun}
    (hr : w.purgeRuns[i]? = some r) {e : QueueRow} {rest : List QueueRow} (hdue : r.due = e :: rest)
    (deleted : Bool) (done : List QueueRow) :
    Inv keepMs { w with
      objects := if deleted then w.objects.filter (·.key ≠ e.storageKey) else w.objects
      purgeRuns := w.purgeRuns.set i { r with due := rest, done } } := by
  have hmem := List.mem_of_getElem? hr
  have hein : e ∈ r.due := hdue ▸ List.mem_cons_self
  have hd := h.due r hmem e hein
  have hsub : ∀ r' ∈ w.purgeRuns.set i { r with due := rest, done },
      ∃ r₀ ∈ w.purgeRuns, ∀ e ∈ r'.due, e ∈ r₀.due := by
    intro r' hr'
    rcases List.mem_or_eq_of_mem_set hr' with hr' | rfl
    · exact ⟨r', hr', fun _ he => he⟩
    · exact ⟨r, hmem, fun _ he => hdue ▸ List.mem_cons_of_mem _ he⟩
  -- without the deletion, only the run has gone on
  have hgone : Inv keepMs { w with purgeRuns := w.purgeRuns.set i { r with due := rest, done } } := by
    have hs : Shrinks w { w with purgeRuns := w.purgeRuns.set i { r with due := rest, done } } :=
      ⟨le_rfl, rfl, rfl, rfl, .refl _, hsub⟩
    exact h.shrinkRest hs (hs.fits h.db) fun r hr => hr
  by_cases hdel : deleted = true
  · rw [if_pos hdel]
    have hstored : ∀ key, key ≠ e.storageKey → key ∈ w.stored →
        key ∈ (w.objects.filter (·.key ≠ e.storageKey)).map (·.key) := by
      intro key hne hin
      obtain ⟨o, ho, rfl⟩ := List.mem_map.mp hin
      exact List.mem_map_of_mem (List.mem_filter.mpr ⟨ho, by simpa using hne⟩)
    refine ⟨⟨h.db.wellFormed, ⟨h.db.apart.refs, h.db.apart.queue, h.db.apart.knownRefs,
      h.db.apart.knownQueue⟩, ?_, h.db.deadlines, hgone.db.pending⟩, ?_, ?_, ?_,
      h.uploadKeys, ?_, h.searches, ?_⟩
    · intro key hin
      exact hstored key (fun heq => h.db.pending r hmem e hein (heq ▸ hin)) (h.db.present key hin)
    · intro b hb
      have hk := h.backups b hb
      refine ⟨hk.wellFormed, ⟨hk.apart.refs, hk.apart.queue, hk.apart.knownRefs,
        hk.apart.knownQueue⟩, ?_⟩
      intro hle key hin
      refine hstored key (fun heq => ?_) (hk.present hle key hin)
      have hlate := hd.late b hb (heq ▸ hin)
      have hpassed := hd.passed
      dsimp only at hle
      omega
    · intro r' hr' e' he'
      have hd' := hgone.due r' hr' e' he'
      exact ⟨hd'.known, hd'.passed, hd'.late, hd'.apart⟩
    · intro u hu
      have hup := h.uploads u hu
      refine ⟨hup.known, fun hmay => ?_, fun o ho => hup.modified o (List.mem_filter.mp ho).1⟩
      exact hstored u.key (hd.apart u hu hmay).symm (hup.present hmay)
    · intro key hin
      obtain ⟨o, ho, rfl⟩ := List.mem_map.mp hin
      exact h.objects _ (List.mem_map_of_mem (List.mem_filter.mp ho).1)
    · intro r' hr' l hl
      have hlisted := h.listings r' hr' l hl
      exact ⟨hlisted.listed, hlisted.known, hlisted.modified⟩
  · rw [if_neg hdel]
    exact hgone

theorem Inv.startPurge {keepMs : ℤ} {w : World} (h : Inv keepMs w) {now : ℤ}
    {due : List QueueRow} (hnow : now ≤ w.clock)
    (hdue : ∀ e ∈ due, e ∈ w.db.queue ∧ e.isDue now) :
    Inv keepMs { w with purgeRuns := ⟨now, due, []⟩ :: w.purgeRuns } := by
  refine ⟨⟨h.db.wellFormed, ⟨h.db.apart.refs, h.db.apart.queue, h.db.apart.knownRefs,
    h.db.apart.knownQueue⟩, h.db.present, h.db.deadlines, ?_⟩, ?_, ?_, ?_, h.uploadKeys, h.objects,
    h.searches, ?_⟩
  · intro r hr e he
    rcases List.mem_cons.mp hr with rfl | hr
    · exact h.db.wellFormed.apart e (hdue e he).1
    · exact h.db.pending r hr e he
  · intro b hb
    have hk := h.backups b hb
    exact ⟨hk.wellFormed, ⟨hk.apart.refs, hk.apart.queue, hk.apart.knownRefs, hk.apart.knownQueue⟩,
      hk.present⟩
  · intro r hr e he
    rcases List.mem_cons.mp hr with rfl | hr
    · obtain ⟨hin, hnone, hafter⟩ := hdue e he
      exact ⟨h.db.apart.knownQueue e hin, hafter.trans hnow, h.db.deadlines e hin hnone,
        fun u hu hmay => h.db.apart.queue u hu hmay e hin⟩
    · have hd := h.due r hr e he
      exact ⟨hd.known, hd.passed, hd.late, hd.apart⟩
  · intro u hu
    have hup := h.uploads u hu
    exact ⟨hup.known, hup.present, hup.modified⟩
  · intro r hr l hl
    have hlisted := h.listings r hr l hl
    exact ⟨hlisted.listed, hlisted.known, hlisted.modified⟩

/-- A backup is taken of a database of which nothing is queued. -/
theorem Inv.backup {keepMs : ℤ} {w : World} (h : Inv keepMs w) :
    Inv keepMs { w with backups := ⟨w.clock, w.db⟩ :: w.backups } := by
  have hlate : ∀ e, Late keepMs w.backups e → e.storageKey ∉ w.db.refs →
      Late keepMs (⟨w.clock, w.db⟩ :: w.backups) e := by
    intro e hl hfree b hb href
    rcases List.mem_cons.mp hb with rfl | hb
    · exact absurd href hfree
    · exact hl b hb href
  have hapart : ∀ {db : Db}, Apart w db →
      Apart { w with backups := ⟨w.clock, w.db⟩ :: w.backups } db := fun ha =>
    ⟨ha.refs, ha.queue, ha.knownRefs, ha.knownQueue⟩
  refine ⟨⟨h.db.wellFormed, hapart h.db.apart, h.db.present, ?_, h.db.pending⟩, ?_, ?_, ?_,
    h.uploadKeys, h.objects, h.searches, ?_⟩
  · exact fun e he hnone => hlate e (h.db.deadlines e he hnone) (h.db.wellFormed.apart e he)
  · intro b hb
    rcases List.mem_cons.mp hb with rfl | hb
    · exact ⟨h.db.wellFormed, hapart h.db.apart, fun _ => h.db.present⟩
    · have hk := h.backups b hb
      exact ⟨hk.wellFormed, hapart hk.apart, hk.present⟩
  · intro r hr e he
    have hd := h.due r hr e he
    exact ⟨hd.known, hd.passed, hlate e hd.late (h.db.pending r hr e he), hd.apart⟩
  · intro u hu
    have hup := h.uploads u hu
    exact ⟨hup.known, hup.present, hup.modified⟩
  · intro r hr l hl
    have hlisted := h.listings r hr l hl
    exact ⟨hlisted.listed, hlisted.known, hlisted.modified⟩

/-- **A backup that is restored finds what it references**, and nobody is about to delete it. -/
theorem Inv.restore {keepMs : ℤ} {w : World} (h : Inv keepMs w) {b : Backup} (hb : b ∈ w.backups)
    (hkept : w.clock ≤ b.time + keepMs)
    (hqueue : ∀ e ∈ b.db.queue, e.purgedAt = none → Late keepMs w.backups e) :
    Inv keepMs { w with db := b.db } := by
  have hk := h.backups b hb
  have hfits : Fits keepMs w b.db := by
    refine ⟨hk.wellFormed, hk.apart, hk.present hkept, hqueue, ?_⟩
    intro r hr e he href
    have hd := h.due r hr e he
    have hlate := hd.late b hb href
    have hpassed := hd.passed
    omega
  exact h.writeDb hfits

/-! ## Whole runs -/

/-- **No step breaks the invariant**, as long as nothing that is queued is in a backup taken since
its deadline counts. -/
theorem Inv.step {addYears : ℤ → ℤ → ℤ} {keepMs : ℤ} {w w' : World} {a : Act} (h : Inv keepMs w)
    (hok : Undisturbed addYears keepMs w a) (hstep : step addYears keepMs w a = some w') :
    Inv keepMs w' := by
  have hself : ∀ r' ∈ w.purgeRuns, ∃ r ∈ w.purgeRuns, ∀ e ∈ r'.due, e ∈ r.due :=
    fun r hr => ⟨r, hr, fun _ he => he⟩
  cases a with
  | pass t =>
    simp only [Storage.step, Option.ite_none_right_eq_some, Option.some.injEq] at hstep
    obtain ⟨hle, rfl⟩ := hstep
    have hs : Shrinks w { w with clock := t } := ⟨hle, rfl, rfl, rfl, .refl _, hself⟩
    exact h.shrinkRest hs (hs.fits h.db) fun r hr => hr
  | createOrganization id =>
    cases hstep
    exact h.writeDb (h.db.same rfl rfl)
  | writeDocuments versions documents signatures =>
    cases hstep
    exact h.writeDb (h.db.same rfl rfl)
  | putObject key =>
    simp only [Storage.step, Option.ite_none_left_eq_some, Option.some.injEq] at hstep
    obtain ⟨hnew, rfl⟩ := hstep
    exact h.putObject hnew
  | commitUpload i =>
    obtain ⟨u, hu, hstep⟩ := Option.bind_eq_some_iff.mp hstep
    simp only [Option.ite_none_left_eq_some, Option.some.injEq, not_lt] at hstep
    obtain ⟨hmay, rfl⟩ := hstep
    exact h.commitUpload hu hmay
  | failUpload i =>
    cases hstep
    have hs : Shrinks w { w with uploads := w.uploads.eraseIdx i } :=
      ⟨le_rfl, rfl, rfl, rfl, List.eraseIdx_sublist _ _, hself⟩
    exact h.shrinkRest hs (hs.fits h.db) fun r hr => hr
  | startDestruction orgId versionId =>
    cases hstep
    have hs : Shrinks w { w with destructions := ⟨orgId, versionId, w.clock⟩ :: w.destructions } :=
      ⟨le_rfl, rfl, rfl, rfl, .refl _, hself⟩
    exact h.shrinkRest hs (hs.fits h.db) fun r hr => hr
  | commitDestruction i newId =>
    obtain ⟨d, hd, rfl⟩ := Option.map_eq_some_iff.mp hstep
    generalize hdb : (destroyVersion addYears keepMs w.db d.organizationId d.versionId newId
      d.now).getD w.db = db'
    have hs : Shrinks w { w with db := db', destructions := w.destructions.eraseIdx i } :=
      ⟨le_rfl, rfl, rfl, rfl, .refl _, hself⟩
    refine h.shrinkRest hs (hs.fits ?_) fun r hr => hr
    cases hdestroy : destroyVersion addYears keepMs w.db d.organizationId d.versionId newId d.now with
    | none =>
      rw [hdestroy] at hdb
      exact hdb ▸ h.db
    | some db₁ =>
      rw [hdestroy] at hdb
      cases hdb
      rcases destroyVersion_effect hdestroy with ⟨hrows, hqueue⟩ | ⟨row, hfile, hrow, hrows, hdrop⟩
      · exact h.db.same hrows hqueue
      · exact h.db.destroy hrow hrows hdrop (hok d hd row hfile)
  | failDestruction i =>
    cases hstep
    have hs : Shrinks w { w with destructions := w.destructions.eraseIdx i } :=
      ⟨le_rfl, rfl, rfl, rfl, .refl _, hself⟩
    exact h.shrinkRest hs (hs.fits h.db) fun r hr => hr
  | startOrphans now =>
    simp only [Storage.step, Option.ite_none_right_eq_some, Option.some.injEq] at hstep
    obtain ⟨hnow, rfl⟩ := hstep
    refine h.search fun r hr => ?_
    rcases List.mem_cons.mp hr with rfl | hr
    · exact .inr ⟨hnow, fun l hl => nomatch hl⟩
    · exact .inl hr
  | listOrphans i =>
    obtain ⟨r, hr, hstep⟩ := Option.bind_eq_some_iff.mp hstep
    split at hstep
    · cases hstep
      refine h.search fun r' hr' => ?_
      rcases List.mem_or_eq_of_mem_set hr' with hr' | rfl
      · exact .inl hr'
      · refine .inr ⟨h.searches r (List.mem_of_getElem? hr), fun l hl => ?_⟩
        cases hl
        exact h.lists _ _
    · cases hstep
  | commitOrphans i newId =>
    obtain ⟨r, hr, hstep⟩ := Option.bind_eq_some_iff.mp hstep
    have hmem := List.mem_of_getElem? hr
    split at hstep
    · rename_i l hl
      cases hstep
      have hqueued := h.db.queueOrphans (h.listings r hmem l hl) (h.searches r hmem) newId
        (hok r hr l hl)
      refine (h.writeDb hqueued).search fun r' hr' => ?_
      rcases List.mem_or_eq_of_mem_set hr' with hr' | rfl
      · exact .inl hr'
      · exact .inr ⟨h.searches r hmem, fun l hl => nomatch hl⟩
    · cases hstep
  | endOrphans i =>
    cases hstep
    have hs : Shrinks w { w with orphanRuns := w.orphanRuns.eraseIdx i } :=
      ⟨le_rfl, rfl, rfl, rfl, .refl _, hself⟩
    exact h.shrinkRest hs (hs.fits h.db) fun r hr => List.mem_of_mem_eraseIdx hr
  | startPurge now due =>
    simp only [Storage.step, Option.ite_none_right_eq_some, Option.some.injEq] at hstep
    obtain ⟨⟨hnow, -, hdue⟩, rfl⟩ := hstep
    exact h.startPurge hnow hdue
  | deleteObject i deleted =>
    obtain ⟨r, hr, hstep⟩ := Option.bind_eq_some_iff.mp hstep
    split at hstep
    · rename_i e rest hdue
      cases hstep
      exact h.deleteObject hr hdue deleted _
    · cases hstep
  | markPurged i orgId =>
    obtain ⟨r, hr, hstep⟩ := Option.bind_eq_some_iff.mp hstep
    simp only [Option.ite_none_right_eq_some, Option.some.injEq] at hstep
    obtain ⟨-, rfl⟩ := hstep
    exact h.writeDb (h.db.markPurged _ _)
  | endPurge i =>
    cases hstep
    have hs : Shrinks w { w with purgeRuns := w.purgeRuns.eraseIdx i } :=
      ⟨le_rfl, rfl, rfl, rfl, .refl _, fun r hr =>
        ⟨r, List.mem_of_mem_eraseIdx hr, fun _ he => he⟩⟩
    exact h.shrinkRest hs (hs.fits h.db) fun r hr => hr
  | backup =>
    cases hstep
    exact h.backup
  | restore j =>
    obtain ⟨b, hb, hstep⟩ := Option.bind_eq_some_iff.mp hstep
    simp only [Option.ite_none_right_eq_some, Option.some.injEq] at hstep
    obtain ⟨hkept, rfl⟩ := hstep
    exact h.restore (List.mem_of_getElem? hb) hkept (hok b hb)

theorem World.Fresh.inv {keepMs : ℤ} {w : World} (h : w.Fresh) : Inv keepMs w where
  db := by
    refine ⟨h.db, ⟨?_, ?_, fun key hkey => h.known key (h.present key hkey), h.queued⟩, h.present,
      ?_, ?_⟩ <;> simp [h.uploads, h.backups, h.purgeRuns, Late]
  backups := by simp [h.backups]
  due := by simp [h.purgeRuns]
  uploads := by simp [h.uploads]
  uploadKeys := by simp [h.uploads]
  objects := h.known
  searches := by simp [h.orphanRuns]
  listings := by simp [h.orphanRuns]

/-- A search takes up its organisations one by one. -/
theorem covers_step {addYears : ℤ → ℤ → ℤ} {keepMs : ℤ} {w w' : World} {a : Act}
    (h : ∀ r ∈ w.orphanRuns, r.Covers) (hstep : step addYears keepMs w a = some w') :
    ∀ r ∈ w'.orphanRuns, r.Covers := by
  cases a with
  | startOrphans now =>
    simp only [Storage.step, Option.ite_none_right_eq_some, Option.some.injEq] at hstep
    obtain ⟨-, rfl⟩ := hstep
    intro r hr
    rcases List.mem_cons.mp hr with rfl | hr
    · rfl
    · exact h r hr
  | listOrphans i =>
    obtain ⟨r, hr, hstep⟩ := Option.bind_eq_some_iff.mp hstep
    have hcovers := h r (List.mem_of_getElem? hr)
    split at hstep
    · rename_i orgId rest hlisting hrest
      cases hstep
      intro r' hr'
      rcases List.mem_or_eq_of_mem_set hr' with hr' | rfl
      · exact h r' hr'
      · unfold OrphanRun.Covers at hcovers ⊢
        rw [hlisting, hrest] at hcovers
        simpa using hcovers
    · cases hstep
  | commitOrphans i newId =>
    obtain ⟨r, hr, hstep⟩ := Option.bind_eq_some_iff.mp hstep
    have hcovers := h r (List.mem_of_getElem? hr)
    split at hstep
    · rename_i l hlisting
      cases hstep
      intro r' hr'
      rcases List.mem_or_eq_of_mem_set hr' with hr' | rfl
      · exact h r' hr'
      · unfold OrphanRun.Covers at hcovers ⊢
        rw [hlisting] at hcovers
        simpa using hcovers
    · cases hstep
  | endOrphans i =>
    cases hstep
    exact fun r hr => h r (List.mem_of_mem_eraseIdx hr)
  | _ =>
    have hsame : w'.orphanRuns = w.orphanRuns := by
      simp only [Storage.step, Option.bind_eq_some_iff, Option.map_eq_some_iff] at hstep
      grind
    rw [hsame]
    exact h

/-- **The clean-up loses no file**, in every state of every run in which nothing that is queued is
in a backup taken since its deadline counts. -/
theorem cleanup_loses_nothing {addYears : ℤ → ℤ → ℤ} {keepMs : ℤ} {start w : World}
    {as : List Act} (hstart : start.Fresh)
    (halong : Along (step addYears keepMs) (Undisturbed addYears keepMs) start as)
    (hrun : run (step addYears keepMs) start as = some w) : Cleans addYears keepMs w := by
  have hinv : Inv keepMs w :=
    run_keeps (fun _ _ _ h hok hs => h.step hok hs) hstart.inv halong hrun
  have hcovers : ∀ r ∈ w.orphanRuns, r.Covers := by
    refine run_keeps (fun _ _ _ h _ hs => covers_step h hs) ?_ halong hrun
    simp [hstart.orphanRuns]
  refine ⟨⟨hinv.db.present, fun b hb => (hinv.backups b hb).present⟩, ?_, ?_, hcovers⟩
  · intro i deleted w' hstep key hin hgone
    obtain ⟨r, hr, hstep⟩ := Option.bind_eq_some_iff.mp hstep
    split at hstep
    · rename_i e rest hdue
      cases hstep
      by_cases hkey : key = e.storageKey
      · rw [hkey]
        exact hinv.db.pending r (List.mem_of_getElem? hr) e (hdue ▸ List.mem_cons_self)
      · obtain ⟨o, ho, rfl⟩ := List.mem_map.mp hin
        refine absurd (List.mem_map_of_mem ?_) hgone
        split_ifs
        · exact List.mem_filter.mpr ⟨ho, by simpa using hkey⟩
        · exact ho
    · cases hstep
  · intro i newId w' hstep
    obtain ⟨r, hr, hstep⟩ := Option.bind_eq_some_iff.mp hstep
    split at hstep
    · rename_i l hl
      cases hstep
      refine ⟨r, l, hr, hl, fun key => ?_⟩
      rw [(hinv.listings r (List.mem_of_getElem? hr) l hl).listed]
      exact queueOrphans_iff hinv.db.wellFormed key
    · cases hstep

/-! ## Backups in between -/

/-- Nothing was ever stored. -/
def nothing : World := ⟨0, ⟨[], [], [], [], [], []⟩, [], [], [], [], [], [], []⟩

theorem nothing_fresh : nothing.Fresh where
  db := by constructor <;> simp [nothing]
  present := by simp [nothing, Db.refs]
  known := by simp [nothing, World.stored]
  queued := by simp [nothing]
  uploads := rfl
  orphanRuns := rfl
  purgeRuns := rfl
  backups := rfl

/-- Years of 365 days, and a week of backups. -/
def plainYears (t years : ℤ) : ℤ := t + years * 365 * dayMs

def week : ℤ := 7 * dayMs

def fileKey : ObjectKey := ⟨js "org", js "file"⟩

/-- A version that was in force for a moment, and is due a day later. -/
def dueVersion : VersionRow :=
  ⟨js "v", js "org", js "doc", some 0, some 0, none, none, some (js "file")⟩

def dueDocument : DocumentRow := ⟨js "doc", js "org", false, some 0, none⟩

/-- The file is stored, and its version falls due. -/
def storeFile : List Act :=
  [.createOrganization (js "org"), .putObject fileKey, .commitUpload 0,
    .writeDocuments [dueVersion] [dueDocument] [], .pass dayMs]

/-- What a destruction at a time queues. -/
def queuedFile (now : ℤ) : QueueRow :=
  ⟨js "q", js "org", fileKey, .documentDestroyed, some (js "file"), purgeAfter week now, none⟩

/-- A purge at the deadline. -/
def purgeFile (now : ℤ) : List Act :=
  [.pass (purgeAfter week now), .startPurge (purgeAfter week now) [queuedFile now],
    .deleteObject 0 true]

/-- A backup is taken while a destruction is under way. -/
def backupMeanwhile : List Act :=
  storeFile ++ [.startDestruction (js "org") (js "v"), .pass (dayMs + 1), .backup,
    .commitDestruction 0 (js "q")] ++ purgeFile dayMs

/-- A backup of before a destruction is restored, then one of after it. -/
def restoredTwice : List Act :=
  storeFile ++ [.backup, .pass (dayMs + 1), .startDestruction (js "org") (js "v"),
    .commitDestruction 0 (js "q"), .backup, .restore 1, .pass (2 * dayMs), .backup,
    .restore 1] ++ purgeFile (dayMs + 1)

theorem backup_outlives_file :
    (nothing.Fresh ∧ ∃ w ∈ run (step plainYears week) nothing backupMeanwhile, ¬ Sound week w) ∧
      ∃ w ∈ run (step plainYears week) nothing restoredTwice, ¬ Sound week w := by
  refine ⟨⟨nothing_fresh, ?_⟩, ?_⟩
  · decide
  · decide

/-- A backup before a destruction, which is restored and destroyed again. -/
def destroyedTwice : List Act :=
  storeFile ++ [.backup, .pass (dayMs + 1), .startDestruction (js "org") (js "v"),
    .commitDestruction 0 (js "q"), .pass (2 * dayMs), .restore 0,
    .startDestruction (js "org") (js "v"), .commitDestruction 0 (js "q"),
    .startOrphans (2 * dayMs), .listOrphans 0, .commitOrphans 0 fun _ => js "r"] ++
    purgeFile (2 * dayMs)

theorem cleanup_loses_nothing_sample :
    ∃ w, run (step plainYears week) nothing destroyedTwice = some w ∧ w.objects = [] ∧
      Cleans plainYears week w := by
  have hsome : ∃ w ∈ run (step plainYears week) nothing destroyedTwice, w.objects = [] := by
    decide
  obtain ⟨w, hw, hempty⟩ := hsome
  refine ⟨w, hw, hempty, cleanup_loses_nothing nothing_fresh ?_ hw⟩
  decide

end Klick.Storage
