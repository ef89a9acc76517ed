-- The object storage beside the database and its backups (`lib/jobs/storage.ts`, the storing
-- of `lib/evidence/store.ts` and the destruction of `lib/documents/destruction.ts`): objects
-- are put before their rows, taken out of use in the database, and deleted once no backup
-- within the retention can bring their rows back.
import Klick.Text
import Klick.Interleaving

open Js Interleaving

namespace Klick.Storage

/-! ## The database -/

/-- `org/<organizationId>/nachweise/<id>` -/
structure ObjectKey where
  organizationId : Text
  id : Text
deriving DecidableEq

inductive StorageKey
  | object (key : ObjectKey)
  /-- The file is in the database itself (`db:<id>`). -/
  | database (id : Text)
deriving DecidableEq

structure EvidenceRow where
  id : Text
  organizationId : Text
  storageKey : Option StorageKey
deriving DecidableEq

/-- The object that a row references. -/
def EvidenceRow.objectKey (r : EvidenceRow) : Option ObjectKey :=
  match r.storageKey with
  | some (.object key) => some key
  | _ => none

structure VersionRow where
  id : Text
  organizationId : Text
  documentId : Text
  publishedAt : Option ℤ
  retiredAt : Option ℤ
  destroyedAt : Option ℤ
  retainUntil : Option ℤ
  fileEvidenceId : Option Text
deriving DecidableEq

structure DocumentRow where
  id : Text
  organizationId : Text
  /-- A contract, a record or a report. -/
  long : Bool
  retentionYears : Option ℤ
  fileEvidenceId : Option Text
deriving DecidableEq

structure SignatureRow where
  organizationId : Text
  evidenceId : Text
deriving DecidableEq

inductive PurgeReason
  | orphan | documentDestroyed
deriving DecidableEq, Repr

structure QueueRow where
  id : Text
  organizationId : Text
  storageKey : ObjectKey
  reason : PurgeReason
  refId : Option Text
  purgeAfter : ℤ
  purgedAt : Option ℤ
deriving DecidableEq

structure Db where
  organizations : List Text
  evidence : List EvidenceRow
  versions : List VersionRow
  documents : List DocumentRow
  signatures : List SignatureRow
  queue : List QueueRow
deriving DecidableEq

/-- The objects that rows reference. -/
def Db.refs (db : Db) : List ObjectKey := db.evidence.filterMap EvidenceRow.objectKey

def dayMs : ℤ := 86400000

/-- `purgeAfter`; `keepMs` is the retention of the backups. -/
def purgeAfter (keepMs now : ℤ) : ℤ := now + keepMs

/-- `onConflictDoNothing`, for the organisation and the key -/
def enqueue (queue : List QueueRow) (row : QueueRow) : List QueueRow :=
  if queue.any fun e => e.organizationId = row.organizationId && e.storageKey = row.storageKey then
    queue
  else queue ++ [row]

/-! ## Retention of versions -/

inductive RetentionState
  | inForce | retained | due | destroyed | none
deriving DecidableEq, Repr

/-- `published`: by the time of publication, those of the same time as they stand. -/
def published (versions : List VersionRow) : List VersionRow :=
  (versions.filter fun v => v.publishedAt.isSome).insertionSort fun a b =>
    a.publishedAt.getD 0 ≤ b.publishedAt.getD 0

/-- `validRanges(…).get(id)`: until when a published version was in force, if it ever was. -/
def rangeUntil (id : Text) : List VersionRow → Option (Option ℤ)
  | [] => none
  | v :: rest =>
    if v.id = id then some ((rest.head?.bind (·.publishedAt)).merge min v.retiredAt)
    else rangeUntil id rest

def retentionYearsOf (doc : DocumentRow) : ℤ := doc.retentionYears.getD (if doc.long then 10 else 5)

section Retention

-- the calendar of the platform
variable (addYears : ℤ → ℤ → ℤ)

def retentionOf (v : VersionRow) (range : Option (Option ℤ)) (years today : ℤ) : RetentionState :=
  if v.destroyedAt.isSome then .destroyed
  else
    match range with
    | none => .none
    | some none => .inForce
    | some (some until_) =>
      if today < until_ then .inForce
      else
        let base := addYears until_ (max 0 years)
        let retainUntil := match v.retainUntil with
          | some hold => if base < hold then hold else base
          | none => base
        if retainUntil / dayMs < today / dayMs then .due else .retained

/-- `loadVersionRetention` -/
def loadVersionRetention (db : Db) (orgId versionId : Text) (today : ℤ) :
    Option (VersionRow × DocumentRow × RetentionState) :=
  match db.versions.find? fun v => v.id = versionId && v.organizationId = orgId with
  | none => none
  | some v =>
    match db.documents.find? fun d => d.id = v.documentId && d.organizationId = orgId with
    | none => none
    | some doc =>
      let all := db.versions.filter fun u => u.documentId = doc.id && u.organizationId = orgId
      some (v, doc, retentionOf addYears v (rangeUntil v.id (published all))
        (retentionYearsOf doc) today)

/-- The file is used elsewhere. -/
def fileKept (db : Db) (orgId : Text) (v : VersionRow) (doc : DocumentRow) (fileId : Text) : Bool :=
  (db.versions.any fun u =>
    u.organizationId = orgId && u.fileEvidenceId = some fileId && u.id ≠ v.id) ||
  (db.signatures.any fun s => s.organizationId = orgId && s.evidenceId = fileId) ||
  doc.fileEvidenceId = some fileId

/-- The row of a file goes, and its object is to go after the retention of the backups. -/
def dropFile (keepMs : ℤ) (db : Db) (orgId fileId newId : Text) (now : ℤ) : Db :=
  match db.evidence.find? fun e => e.id = fileId && e.organizationId = orgId with
  | none => db
  | some row =>
    { db with
      evidence := db.evidence.filter fun e => e.id ≠ row.id
      queue := match row.objectKey with
        | some key => enqueue db.queue
            ⟨newId, orgId, key, .documentDestroyed, some row.id, purgeAfter keepMs now, none⟩
        | none => db.queue }

/-- `destroyVersion` -/
def destroyVersion (keepMs : ℤ) (db : Db) (orgId versionId newId : Text) (now : ℤ) : Option Db :=
  match loadVersionRetention addYears db orgId versionId now with
  | some (v, doc, .due) =>
    let versions := updateRows (·.id = v.id)
      (fun u => { u with destroyedAt := some now, fileEvidenceId := none }) db.versions
    let db' := { db with versions }
    match v.fileEvidenceId with
    | none => some db'
    | some fileId =>
      some (if fileKept db orgId v doc fileId then db'
        else dropFile keepMs db' orgId fileId newId now)
  | _ => none

end Retention

/-! ## Orphans -/

structure StoredObject where
  key : ObjectKey
  lastModified : ℤ
deriving DecidableEq

/-- `listObjects`, by the prefix of an organisation -/
def listObjects (objects : List StoredObject) (orgId : Text) : List StoredObject :=
  objects.filter fun o => o.key.organizationId = orgId

/-- `findOrphans`, in the order of the listing -/
def findOrphans (objects : List StoredObject) (referenced queued : List ObjectKey) (now : ℤ) :
    List ObjectKey :=
  ((objects.filter fun o => o.key ∉ referenced && o.key ∉ queued).filter fun o =>
    dayMs < now - o.lastModified).map (·.key)

/-- The keys that the rows of an organisation reference, or its queue holds. -/
def referencedOf (db : Db) (orgId : Text) : List ObjectKey :=
  (db.evidence.filter fun e => e.organizationId = orgId).filterMap EvidenceRow.objectKey

def queuedOf (db : Db) (orgId : Text) : List ObjectKey :=
  (db.queue.filter fun e => e.organizationId = orgId).map (·.storageKey)

def orphansOf (db : Db) (orgId : Text) (listed : List StoredObject) (now : ℤ) : List ObjectKey :=
  findOrphans listed (referencedOf db orgId) (queuedOf db orgId) now

def queueOrphans (keepMs : ℤ) (db : Db) (orgId : Text) (listed : List StoredObject) (now : ℤ)
    (newId : ObjectKey → Text) : Db :=
  let rows : List QueueRow := (orphansOf db orgId listed now).map fun key =>
    ⟨newId key, orgId, key, .orphan, none, purgeAfter keepMs now, none⟩
  { db with queue := rows.foldl enqueue db.queue }

/-! ## Everything side by side -/

/-- An object was put, and its row is not committed yet. -/
structure Upload where
  key : ObjectKey
  putAt : ℤ
deriving DecidableEq

/-- A destruction that knows its `now`. -/
structure Destruction where
  organizationId : Text
  versionId : Text
  now : ℤ
deriving DecidableEq

/-- What was listed of an organisation, and all that was there. -/
structure Listing where
  organizationId : Text
  listed : List StoredObject
  stock : List StoredObject
deriving DecidableEq

structure OrphanRun where
  now : ℤ
  /-- The organisations that there were, those that are done with, and the rest. -/
  organizations : List Text
  handled : List Text
  listing : Option Listing
  rest : List Text
deriving DecidableEq

structure PurgeRun where
  now : ℤ
  due : List QueueRow
  done : List QueueRow
deriving DecidableEq

structure Backup where
  time : ℤ
  db : Db
deriving DecidableEq

structure World where
  clock : ℤ
  db : Db
  objects : List StoredObject
  /-- All keys that were ever used. -/
  known : List ObjectKey
  uploads : List Upload
  destructions : List Destruction
  orphanRuns : List OrphanRun
  purgeRuns : List PurgeRun
  backups : List Backup

inductive Act
  | pass (t : ℤ)
  | createOrganization (id : Text)
  /-- Documents are written, published and signed. -/
  | writeDocuments (versions : List VersionRow) (documents : List DocumentRow)
      (signatures : List SignatureRow)
  | putObject (key : ObjectKey)
  | commitUpload (i : ℕ)
  | failUpload (i : ℕ)
  | startDestruction (orgId versionId : Text)
  | commitDestruction (i : ℕ) (newId : Text)
  | failDestruction (i : ℕ)
  | startOrphans (now : ℤ)
  | listOrphans (i : ℕ)
  | commitOrphans (i : ℕ) (newId : ObjectKey → Text)
  | endOrphans (i : ℕ)
  | startPurge (now : ℤ) (due : List QueueRow)
  /-- The next object is deleted, or its deletion fails. -/
  | deleteObject (i : ℕ) (deleted : Bool)
  | markPurged (i : ℕ) (orgId : Text)
  | endPurge (i : ℕ)
  | backup
  | restore (j : ℕ)

section Steps

variable (addYears : ℤ → ℤ → ℤ) (keepMs : ℤ)

/-- A row of the purge queue that is due. -/
def QueueRow.isDue (now : ℤ) (e : QueueRow) : Prop := e.purgedAt = none ∧ e.purgeAfter ≤ now

instance (now : ℤ) (e : QueueRow) : Decidable (e.isDue now) := inferInstanceAs (Decidable (_ ∧ _))

def markPurged (now : ℤ) (ids : List Text) (queue : List QueueRow) : List QueueRow :=
  updateRows (·.id ∈ ids) (fun e => { e with purgedAt := some now }) queue

def Upload.row (u : Upload) : EvidenceRow :=
  ⟨u.key.id, u.key.organizationId, some (.object u.key)⟩

/-- One step of anybody. -/
def step (w : World) : Act → Option World
  | .pass t => if w.clock ≤ t then some { w with clock := t } else none
  | .createOrganization id =>
    some { w with db := { w.db with organizations := w.db.organizations ++ [id] } }
  | .writeDocuments versions documents signatures =>
    some { w with db := { w.db with versions, documents, signatures } }
  | .putObject key =>
    -- the id is random
    if key ∈ w.known then none
    else some { w with
      objects := ⟨key, w.clock⟩ :: w.objects
      known := key :: w.known
      uploads := ⟨key, w.clock⟩ :: w.uploads }
  | .commitUpload i =>
    (w.uploads[i]?).bind fun u =>
      if u.putAt + dayMs < w.clock then none
      else some { w with
        db := { w.db with evidence := w.db.evidence ++ [u.row] }
        uploads := w.uploads.eraseIdx i }
  | .failUpload i => some { w with uploads := w.uploads.eraseIdx i }
  | .startDestruction orgId versionId =>
    some { w with destructions := ⟨orgId, versionId, w.clock⟩ :: w.destructions }
  | .commitDestruction i newId =>
    (w.destructions[i]?).map fun d =>
      { w with
        db := (destroyVersion addYears keepMs w.db d.organizationId d.versionId newId d.now).getD w.db
        destructions := w.destructions.eraseIdx i }
  | .failDestruction i => some { w with destructions := w.destructions.eraseIdx i }
  | .startOrphans now =>
    if now ≤ w.clock then
      some { w with orphanRuns :=
        ⟨now, w.db.organizations, [], none, w.db.organizations⟩ :: w.orphanRuns }
    else none
  | .listOrphans i =>
    (w.orphanRuns[i]?).bind fun r =>
      match r.listing, r.rest with
      | none, orgId :: rest =>
        some { w with orphanRuns := w.orphanRuns.set i { r with
          listing := some ⟨orgId, listObjects w.objects orgId, w.objects⟩
          rest } }
      | _, _ => none
  | .commitOrphans i newId =>
    (w.orphanRuns[i]?).bind fun r =>
      match r.listing with
      | some l =>
        some { w with
          db := queueOrphans keepMs w.db l.organizationId l.listed r.now newId
          orphanRuns := w.orphanRuns.set i { r with
            handled := r.handled ++ [l.organizationId]
            listing := none } }
      | none => none
  | .endOrphans i => some { w with orphanRuns := w.orphanRuns.eraseIdx i }
  | .startPurge now due =>
    -- of the rows that are due, a thousand at most
    if now ≤ w.clock ∧ due.length ≤ 1000 ∧ ∀ e ∈ due, e ∈ w.db.queue ∧ e.isDue now then
      some { w with purgeRuns := ⟨now, due, []⟩ :: w.purgeRuns }
    else none
  | .deleteObject i deleted =>
    (w.purgeRuns[i]?).bind fun r =>
      match r.due with
      | e :: rest =>
        some { w with
          objects := if deleted then w.objects.filter (·.key ≠ e.storageKey) else w.objects
          purgeRuns := w.purgeRuns.set i { r with
            due := rest
            done := if deleted then r.done ++ [e] else r.done } }
      | [] => none
  | .markPurged i orgId =>
    (w.purgeRuns[i]?).bind fun r =>
      if r.due = [] then
        let ids := (r.done.filter fun e => e.organizationId = orgId).map (·.id)
        some { w with db := { w.db with queue := markPurged r.now ids w.db.queue } }
      else none
  | .endPurge i => some { w with purgeRuns := w.purgeRuns.eraseIdx i }
  | .backup => some { w with backups := ⟨w.clock, w.db⟩ :: w.backups }
  | .restore j =>
    (w.backups[j]?).bind fun b =>
      if w.clock ≤ b.time + keepMs then some { w with db := b.db } else none

end Steps

end Klick.Storage
