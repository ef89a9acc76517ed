-- Versions of evidence (`lib/evidence/current.ts`) and the evidence sheets of the controls
-- (`app/actions/evidence-studio.ts`): a new version is created and takes over in one
-- transaction, which locks the row of its predecessor, and reads and writes whole sheets.
import Klick.Distinct
import Klick.DlpPolicy
import Klick.Fields
import Klick.Interleaving
import Klick.OrderedMap

open Js Interleaving

namespace Klick.EvidenceVersions

open Dlp (Classification)

/-! ## Evidence sheets -/

inductive Answer
  | yes | inPart | no | na
deriving DecidableEq

structure SheetAnswer where
  answer : Answer
  note : Option Text
  evidenceIds : Option (List Text)
  updatedAt : Option Text
  byUserId : Option Text
deriving DecidableEq

inductive ItemMode
  | kind | document | evidence | text
deriving DecidableEq

structure SheetItem where
  mode : ItemMode
  note : Option Text
  evidenceIds : Option (List Text)
  documentId : Option Text
  updatedAt : Option Text
  byUserId : Option Text
deriving DecidableEq

structure OwnParam where
  framework : Text
  topic : Text
  value : ℚ
deriving DecidableEq

structure ControlSheetState where
  answers : Option (OrderedMap Text SheetAnswer)
  items : Option (OrderedMap Text SheetItem)
  ownParams : Option (List OwnParam)

namespace ControlSheetState

/-- `{}` -/
def empty : ControlSheetState := ⟨none, none, none⟩

/-- Some answer or position names the evidence. -/
def names (s : ControlSheetState) (id : Text) : Bool :=
  s.answers.any (fun m => m.values.any fun v => v.evidenceIds.any (id ∈ ·)) ||
    s.items.any fun m => m.values.any fun v => v.evidenceIds.any (id ∈ ·)

end ControlSheetState

/-- The new id in the place of the old one, without repetitions. -/
def swap (oldId newId : Text) (ids : List Text) : List Text :=
  if oldId ∈ ids then distinct (ids.map fun x => if x = oldId then newId else x) else ids

structure Replaced where
  sheet : ControlSheetState
  changed : Bool

def replaceInSheet (sheet : ControlSheetState) (oldId newId : Text) : Replaced where
  sheet := { sheet with
    answers := sheet.answers.map (·.mapValues fun v =>
      { v with evidenceIds := v.evidenceIds.map (swap oldId newId) })
    items := sheet.items.map (·.mapValues fun v =>
      { v with evidenceIds := v.evidenceIds.map (swap oldId newId) }) }
  changed := sheet.names oldId

/-! ## Edits of a sheet -/

/-- What a person saves, as the three actions do it. -/
inductive SheetEdit
  /-- `saveSheetAnswer`: an answer with its note, or none. -/
  | answer (questionId : Text) (value : Option (Answer × Option Text)) (now userId : Text)
  /-- `saveSheetItem`: a position with its note and its evidence, or none. -/
  | item (itemId : Text) (value : Option (ItemMode × Option Text × Option (List Text)))
      (now userId : Text)
  /-- `saveSheetParam` -/
  | param (framework topic : Text) (value : Option ℚ)

def setAnswer (before : Option SheetAnswer) (answer : Answer) (note : Option Text)
    (now userId : Text) : SheetAnswer where
  answer := answer
  note := note.filter (· ≠ [])
  evidenceIds := before.bind (·.evidenceIds)
  updatedAt := some now
  byUserId := some userId

def SheetEdit.apply (sheet : ControlSheetState) : SheetEdit → ControlSheetState
  | .answer questionId value now userId =>
    let answers := sheet.answers.getD .empty
    { sheet with
      answers := some (match value with
        | none => answers.erase questionId
        | some (given, note) => answers.set questionId
            (setAnswer (answers.get questionId) given note now userId)) }
  | .item itemId value now userId =>
    let items := sheet.items.getD .empty
    { sheet with
      items := some (match value with
        | none => items.erase itemId
        | some (mode, note, evidenceIds) => items.set itemId
            ⟨mode, note.filter (· ≠ []), evidenceIds, none, some now, some userId⟩) }
  | .param framework topic value =>
    let list := (sheet.ownParams.getD []).filter fun p =>
      ¬ (p.framework = framework ∧ p.topic = topic)
    { sheet with
      ownParams := some (list ++ (value.map fun v => ⟨framework, topic, v⟩).toList) }

/-! ## Rows -/

structure EvidenceRow where
  id : Text
  classification : Classification
  staffVisible : Bool
  supersededAt : Option ℤ
  supersededById : Option Text
  supersedesId : Option Text
deriving DecidableEq

def isCurrentEvidence (row : EvidenceRow) : Bool := row.supersededAt = none

/-- The committed rows of the organisation. -/
structure Db where
  evidence : List EvidenceRow
  /-- The implementations of controls with their evidence. -/
  links : List (Text × Text)
  /-- The sheets of the implementations. -/
  sheets : Text → Option ControlSheetState

inductive SupersedeResult
  | ok | notFound | alreadySuperseded
deriving DecidableEq

/-- What `lockForSuccessor` finds in the row it has locked. -/
def lockForSuccessor (db : Db) (oldId : Text) : SupersedeResult :=
  match db.evidence.find? (·.id = oldId) with
  | none => .notFound
  | some old => if old.supersededAt.isSome then .alreadySuperseded else .ok

/-- A new version of some evidence. -/
structure Replacement where
  oldId : Text
  newId : Text
  classification : Classification
  now : ℤ
deriving DecidableEq

/-- The row of the new version, as the transaction leaves it. -/
def Replacement.row (r : Replacement) (staffVisible : Bool) : EvidenceRow where
  id := r.newId
  classification := r.classification
  staffVisible := staffVisible &&
    (r.classification = .«public» || r.classification = .internal)
  supersededAt := none
  supersededById := none
  supersedesId := some r.oldId

def Replacement.supersede (r : Replacement) (old : EvidenceRow) : EvidenceRow :=
  { old with supersededAt := some r.now, supersededById := some r.newId }

/-! ## Transactions -/

/-- A transaction with what it has read so far. -/
inductive Txn
  | editing (implementationId : Text) (sheet : Option ControlSheetState) (edit : SheetEdit)
  /-- The row of the predecessor is locked. -/
  | locked (r : Replacement)
  | linked (r : Replacement) (staffVisible : Bool) (links : List Text)
  /-- The sheets are those that were committed when the transaction read. -/
  | reading (r : Replacement) (staffVisible : Bool) (links : List Text)
      (sheets : Text → Option ControlSheetState)

/-- The evidence whose row a transaction has locked. -/
def Txn.locks : Txn → Option Text
  | .editing .. => none
  | .locked r => some r.oldId
  | .linked r .. => some r.oldId
  | .reading r .. => some r.oldId

structure World where
  db : Db
  running : List Txn

section Steps

-- whether the text of a sheet contains an id: `sheet::text like '%id%'`
variable (mentions : ControlSheetState → Text → Bool)

/-- The sheets behind a replacement: those that it has read and changed are written. -/
def writeSheets (r : Replacement) (read now : Text → Option ControlSheetState) :
    Text → Option ControlSheetState := fun c =>
  match (read c).filter (mentions · r.oldId) with
  | some sheet =>
    let next := replaceInSheet sheet r.oldId r.newId
    if next.changed then some next.sheet else now c
  | none => now c

/-- The statements that write, and the commit. -/
def Txn.write (db : Db) : Txn → Option Db
  | .editing c sheet edit =>
    -- a row that both find missing is created once
    if sheet.isSome = (db.sheets c).isSome then
      some { db with
        sheets := Function.update db.sheets c (some (edit.apply (sheet.getD .empty))) }
    else none
  | .locked _ => none
  | .linked .. => none
  | .reading r staffVisible links sheets =>
    -- a new id is random
    if isUuid r.newId = true ∧ r.newId ∉ db.evidence.map (·.id) ∧
        r.newId ∉ db.links.map Prod.snd then
      some {
        evidence := updateRows (·.id = r.oldId) r.supersede db.evidence ++ [r.row staffVisible]
        links := db.links ++ links.map fun c => (c, r.newId)
        sheets := writeSheets mentions r sheets db.sheets }
    else none

inductive Act
  | edit (implementationId : Text) (edit : SheetEdit)
  | replace (r : Replacement)
  | readLinks (n : ℕ)
  | readSheets (n : ℕ)
  | commit (n : ℕ)
  | rollback (n : ℕ)

/-- The first statement of a replacement: it waits for the lock of another. -/
def World.lock (w : World) (r : Replacement) : Option World :=
  if w.running.any (·.locks = some r.oldId) then none
  else match lockForSuccessor w.db r.oldId with
    | .ok => some { w with running := w.running ++ [.locked r] }
    | _ => some w

def World.readLinks (w : World) (n : ℕ) : Option World :=
  match w.running[n]? with
  | some (.locked r) =>
    let staffVisible := ((w.db.evidence.find? (·.id = r.oldId)).map (·.staffVisible)).getD false
    let links := (w.db.links.filter (·.2 = r.oldId)).map Prod.fst
    some { w with running := w.running.set n (.linked r staffVisible links) }
  | _ => none

def World.readSheets (w : World) (n : ℕ) : Option World :=
  match w.running[n]? with
  | some (.linked r staffVisible links) =>
    some { w with running := w.running.set n (.reading r staffVisible links w.db.sheets) }
  | _ => none

def World.commit (w : World) (n : ℕ) : Option World := do
  let t ← w.running[n]?
  let db ← t.write mentions w.db
  return { db, running := w.running.eraseIdx n }

def step (w : World) : Act → Option World
  | .edit c edit => some { w with running := w.running ++ [.editing c (w.db.sheets c) edit] }
  | .replace r => w.lock r
  | .readLinks n => w.readLinks n
  | .readSheets n => w.readSheets n
  | .commit n => w.commit mentions n
  | .rollback n => (w.running[n]?).map fun _ => { w with running := w.running.eraseIdx n }

end Steps

end Klick.EvidenceVersions
