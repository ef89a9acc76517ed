-- Access reviews (`lib/identity/review-rules.ts`, `lib/identity/review-service.ts`): the rules,
-- and the four operations as transactions that read committed rows. A row that a statement
-- writes is locked until the commit, so the statements that write are one step with it.
import Klick.Coercion
import Klick.Checked
import Klick.Interleaving

open Js Interleaving

namespace Klick.AccessReviews

/-! ## Rules -/

inductive ReviewScope
  | all | admins | members
deriving DecidableEq

inductive AccountKind
  | member | guest
deriving DecidableEq

structure IdentityAccount where
  id : Text
  sourceId : Text
  displayName : Text
  email : Option Text
  kind : AccountKind
  enabled : Bool
  isAdmin : Bool
  isTopAdmin : Bool
  missingSince : Option ℤ
deriving DecidableEq

def inReviewScope (a : IdentityAccount) (scope : ReviewScope) : Bool :=
  if !a.enabled || a.missingSince.isSome then false
  else match scope with
    | .admins => a.isAdmin || a.isTopAdmin
    | .members => a.kind = .member
    | .all => true

inductive ReviewDecision
  | confirm | adjust | revoke
deriving DecidableEq

namespace ReviewDecision

def text : ReviewDecision → Text
  | confirm => js "confirm"
  | adjust => js "adjust"
  | revoke => js "revoke"

/-- Decisions that become a task. -/
def needsTask : ReviewDecision → Bool
  | confirm => false
  | adjust => true
  | revoke => true

end ReviewDecision

/-- `REVIEW_NOTE_MIN` -/
def reviewNoteMin : ℕ := 5

/-- `REVIEW_MAX_ITEMS` -/
def reviewMaxItems : ℕ := 50000

def decisionError (decision : Text) (note : Option Text) : Option String :=
  if decision ∉ [js "confirm", js "adjust", js "revoke"] then some "identity_decision"
  else if decision ≠ js "confirm" ∧ (trim (note.getD [])).length < reviewNoteMin then
    some "identity_note_required"
  else none

def mayDecide (reviewerUserId : Option Text) (userId : Text) (isOwner : Bool) : Bool :=
  isOwner || reviewerUserId = some userId

structure ReviewProgress where
  total : ℕ
  open_ : ℕ
  confirm : ℕ
  adjust : ℕ
  revoke : ℕ
deriving DecidableEq

/-- One turn of the loop of `reviewProgress`. -/
def ReviewProgress.count (p : ReviewProgress) : Option ReviewDecision → ReviewProgress
  | none => { p with open_ := p.open_ + 1 }
  | some .confirm => { p with confirm := p.confirm + 1 }
  | some .adjust => { p with adjust := p.adjust + 1 }
  | some .revoke => { p with revoke := p.revoke + 1 }

def reviewProgress (decisions : List (Option ReviewDecision)) : ReviewProgress :=
  decisions.foldl ReviewProgress.count ⟨decisions.length, 0, 0, 0, 0⟩

def canClose (p : ReviewProgress) : Bool := 0 < p.total && p.open_ = 0

inductive TestResult
  | pass | partly
deriving DecidableEq

def reviewTestResult (p : ReviewProgress) : TestResult :=
  if 0 < p.adjust + p.revoke then .partly else .pass

/-! ## Rows -/

inductive ReviewStatus
  | opened | closed
deriving DecidableEq

structure AccessReview where
  id : Text
  sourceId : Text
  title : Text
  status : ReviewStatus
  dueAt : Option Text
  startedBy : Text
  startedAt : ℤ
  closedBy : Option Text
  closedAt : Option ℤ
  controlTestId : Option Text
deriving DecidableEq

/-- `ReviewSnapshot`, as far as tasks read it. -/
structure ReviewSnapshot where
  name : Option Text
  email : Option Text
deriving DecidableEq

structure ReviewItem where
  id : Text
  reviewId : Text
  accountId : Text
  snapshot : ReviewSnapshot
  reviewerUserId : Option Text
  decision : Option ReviewDecision
  note : Option Text
  decidedBy : Option Text
  decidedAt : Option ℤ
  taskId : Option Text
deriving DecidableEq

/-- The decision is one that becomes a task. -/
def ReviewItem.needsTask (i : ReviewItem) : Bool := i.decision.any (·.needsTask)

inductive Priority
  | high | normal
deriving DecidableEq

/-- A task of an access review. -/
structure Task where
  id : Text
  title : Text
  description : Text
  assigneeUserId : Text
  createdByUserId : Text
  priority : Priority
  entityId : Option Text
deriving DecidableEq

/-- A control test of an access review. -/
structure ControlTest where
  id : Text
  implementationId : Text
  scope : Text
  testedAt : ℤ
  testerUserId : Text
  result : TestResult
  notes : Text
deriving DecidableEq

/-- The committed rows of the organisation. -/
structure Db where
  reviews : List AccessReview
  items : List ReviewItem
  tasks : List Task
  tests : List ControlTest
deriving DecidableEq

def Db.itemsOf (db : Db) (reviewId : Text) : List ReviewItem :=
  db.items.filter (·.reviewId = reviewId)

structure IdentitySource where
  id : Text
  pendingConsent : Bool
deriving DecidableEq

/-- What the start of a review reads, and others write. -/
structure Directory where
  sources : List IdentitySource
  members : List Text
  accounts : List IdentityAccount

structure Ctx where
  userId : Text
  isOwner : Bool
deriving DecidableEq

/-! ## `startAccessReview` -/

structure StartInput where
  sourceId : Text
  title : Text
  dueAt : Option Text
  scope : ReviewScope
  reviewerUserId : Text
  now : ℤ
deriving DecidableEq

/-- The reading part, with the accounts to review. -/
def startCheck (dir : Directory) (db : Db) (input : StartInput) :
    Except String (List IdentityAccount) := do
  let source ← orRefuse (dir.sources.find? (·.id = input.sourceId)) "notFound"
  check (!source.pendingConsent) "notFound"
  check (db.reviews.all (·.status ≠ .opened)) "identity_review_open"
  check (input.reviewerUserId ∈ dir.members) "identity_not_member"
  let accounts := dir.accounts.filter fun a =>
    a.sourceId = source.id && a.missingSince.isNone && inReviewScope a input.scope
  check (accounts.length ≠ 0) "identity_review_empty"
  check (accounts.length ≤ reviewMaxItems) "identity_review_too_many"
  return accounts

def newReview (ctx : Ctx) (input : StartInput) (id : Text) : AccessReview where
  id := id
  sourceId := input.sourceId
  title := (trim input.title).take 200
  status := .opened
  dueAt := input.dueAt
  startedBy := ctx.userId
  startedAt := input.now
  closedBy := none
  closedAt := none
  controlTestId := none

def newItem (input : StartInput) (reviewId id : Text) (a : IdentityAccount) : ReviewItem where
  id := id
  reviewId := reviewId
  accountId := a.id
  snapshot := ⟨some a.displayName, a.email⟩
  reviewerUserId := some input.reviewerUserId
  decision := none
  note := none
  decidedBy := none
  decidedAt := none
  taskId := none

/-! ## `decideAccessReviewItem` -/

structure DecideInput where
  itemId : Text
  decision : ReviewDecision
  note : Option Text
  now : ℤ
deriving DecidableEq

/-- The reading part: the item, joined with the status of its review. -/
def decideCheck (db : Db) (ctx : Ctx) (input : DecideInput) : Except String ReviewItem := do
  let item ← orRefuse (db.items.find? (·.id = input.itemId)) "notFound"
  let review ← orRefuse (db.reviews.find? (·.id = item.reviewId)) "notFound"
  check (review.status = .opened) "identity_review_closed"
  check (mayDecide item.reviewerUserId ctx.userId ctx.isOwner) "forbidden"
  match decisionError input.decision.text input.note with
  | some e => .error e
  | none => .ok item

/-- `input.note?.trim().slice(0, 1000) || null` -/
def storedNote (note : Option Text) : Option Text :=
  (note.map fun t => (trim t).take 1000).filter (· ≠ [])

def decided (ctx : Ctx) (input : DecideInput) (i : ReviewItem) : ReviewItem :=
  { i with
    decision := some input.decision
    note := storedNote input.note
    decidedBy := some ctx.userId
    decidedAt := some input.now }

/-! ## `confirmAllOpen` -/

structure ReviewInput where
  reviewId : Text
  now : ℤ
deriving DecidableEq

/-- The reading part of `confirmAllOpen`, and the first statement of `closeAccessReview`. -/
def openReview (db : Db) (reviewId : Text) : Except String AccessReview := do
  let review ← orRefuse (db.reviews.find? (·.id = reviewId)) "notFound"
  check (review.status = .opened) "identity_review_closed"
  return review

/-- The condition of the update. -/
def confirms (ctx : Ctx) (input : ReviewInput) (i : ReviewItem) : Bool :=
  i.reviewId = input.reviewId && i.decision = none &&
    (ctx.isOwner || i.reviewerUserId = some ctx.userId)

def confirmed (ctx : Ctx) (input : ReviewInput) (i : ReviewItem) : ReviewItem :=
  { i with
    decision := some .confirm
    note := none
    decidedBy := some ctx.userId
    decidedAt := some input.now }

/-! ## `closeAccessReview` -/

/-- `TASK_TITLE` -/
def taskTitle : ReviewDecision → Text
  | .revoke => js "Zugang entziehen"
  | _ => js "Zugang anpassen"

def taskOf (ctx : Ctx) (review : AccessReview) (impl : Option Text) (id : Text)
    (i : ReviewItem) : Task where
  id := id
  title := (taskTitle (i.decision.getD .adjust) ++ js ": " ++
    (i.snapshot.email <|> i.snapshot.name).getD (js "Konto")).take 300
  description := (js "\n\n").intercalate ((i.note.filter (· ≠ [])).toList ++
    [js "Aus der Zugriffsprüfung „" ++ review.title ++ js "“: /team/zugriffspruefung/" ++
      review.id])
  assigneeUserId := i.decidedBy.getD ctx.userId
  createdByUserId := ctx.userId
  priority := if i.decision = some .revoke then .high else .normal
  entityId := impl

def testOf (ctx : Ctx) (input : ReviewInput) (review : AccessReview) (p : ReviewProgress)
    (id impl : Text) : ControlTest where
  id := id
  implementationId := impl
  scope := (js "Zugriffsprüfung „" ++ review.title ++ js "“").take 300
  testedAt := input.now
  testerUserId := ctx.userId
  result := reviewTestResult p
  notes := decimal p.total ++ js " Konten geprüft, " ++ decimal p.confirm ++ js " bestätigt, " ++
    decimal p.adjust ++ js " angepasst, " ++ decimal p.revoke ++ js " entzogen"

def closed (ctx : Ctx) (input : ReviewInput) (testId : Option Text) (r : AccessReview) :
    AccessReview :=
  { r with
    status := .closed
    closedBy := some ctx.userId
    closedAt := some input.now
    controlTestId := testId }

/-- What the database and the control give to the writing part: the id of the new review or
test, the ids of the new items or tasks, and the implementation of the control, if there is one. -/
structure Draw where
  id : Text
  rowId : Text → Text
  impl : Option Text

/-- The writing part, with the items as they were read. -/
def writeClose (ctx : Ctx) (input : ReviewInput) (review : AccessReview)
    (items : List ReviewItem) (draw : Draw) (db : Db) : Db :=
  let progress := reviewProgress (items.map (·.decision))
  let followUps := items.filter (·.needsTask)
  { reviews := updateRows (·.id = review.id)
      (closed ctx input (draw.impl.map fun _ => draw.id)) db.reviews
    items := updateRows (fun i => followUps.any (·.id = i.id))
      (fun i => { i with taskId := some (draw.rowId i.id) }) db.items
    tasks := db.tasks ++ followUps.map fun i => taskOf ctx review draw.impl (draw.rowId i.id) i
    tests := db.tests ++ (draw.impl.map (testOf ctx input review progress draw.id)).toList }

/-! ## Transactions -/

/-- An operation with what it has read so far. -/
inductive Txn
  | starting (ctx : Ctx) (input : StartInput) (accounts : List IdentityAccount)
  | deciding (ctx : Ctx) (input : DecideInput) (item : ReviewItem)
  | confirming (ctx : Ctx) (input : ReviewInput)
  /-- The row of the review is locked. -/
  | closing (ctx : Ctx) (input : ReviewInput) (review : AccessReview)
  | closingWith (ctx : Ctx) (input : ReviewInput) (review : AccessReview)
      (items : List ReviewItem)
deriving DecidableEq

/-- The review whose row a transaction has locked. -/
def Txn.locks : Txn → Option Text
  | .closing _ _ review => some review.id
  | .closingWith _ _ review _ => some review.id
  | _ => none

inductive Call
  | startAccessReview (ctx : Ctx) (input : StartInput)
  | decideAccessReviewItem (ctx : Ctx) (input : DecideInput)
  | confirmAllOpen (ctx : Ctx) (input : ReviewInput)
  | closeAccessReview (ctx : Ctx) (input : ReviewInput)

structure World where
  db : Db
  dir : Directory
  running : List Txn

/-- The first statements of an operation. One that they refuse is over; one that needs the lock
of another waits. -/
def World.begin (w : World) : Call → Option World
  | .startAccessReview ctx input =>
    match startCheck w.dir w.db input with
    | .ok accounts => some { w with running := w.running ++ [.starting ctx input accounts] }
    | .error _ => some w
  | .decideAccessReviewItem ctx input =>
    match decideCheck w.db ctx input with
    | .ok item => some { w with running := w.running ++ [.deciding ctx input item] }
    | .error _ => some w
  | .confirmAllOpen ctx input =>
    match openReview w.db input.reviewId with
    | .ok _ => some { w with running := w.running ++ [.confirming ctx input] }
    | .error _ => some w
  | .closeAccessReview ctx input =>
    if w.running.any (·.locks = some input.reviewId) then none
    else match openReview w.db input.reviewId with
      | .ok review => some { w with running := w.running ++ [.closing ctx input review] }
      | .error _ => some w

/-- New ids are random: no row has one of them, and no two are the same. -/
def FreshIds (ids news : List Text) : Prop := news.Nodup ∧ ∀ id ∈ news, id ∉ ids

instance (ids news : List Text) : Decidable (FreshIds ids news) :=
  inferInstanceAs (Decidable (_ ∧ _))

/-- The last statements of an operation, and its commit. -/
def Txn.write (db : Db) (draw : Draw) : Txn → Option Db
  | .starting ctx input accounts =>
    if FreshIds (db.reviews.map (·.id)) [draw.id] ∧
        FreshIds (db.items.map (·.id)) (accounts.map fun a => draw.rowId a.id) then
      some { db with
        reviews := db.reviews ++ [newReview ctx input draw.id]
        items := db.items ++ accounts.map fun a => newItem input draw.id (draw.rowId a.id) a }
    else none
  | .deciding ctx input item =>
    some { db with items := updateRows (·.id = item.id) (decided ctx input) db.items }
  | .confirming ctx input =>
    some { db with items := updateRows (confirms ctx input) (confirmed ctx input) db.items }
  | .closing .. => none
  | .closingWith ctx input review items =>
    if FreshIds (db.tests.map (·.id)) (draw.impl.map fun _ => draw.id).toList ∧
        FreshIds (db.tasks.map (·.id))
          ((items.filter (·.needsTask)).map fun i => draw.rowId i.id) then
      some (writeClose ctx input review items draw db)
    else none

inductive Act
  | begin (call : Call)
  /-- The second statement of `closeAccessReview`. -/
  | readItems (n : ℕ)
  | commit (n : ℕ) (draw : Draw)
  | rollback (n : ℕ)
  /-- Others write the rows that the start of a review reads. -/
  | sync (dir : Directory)

def World.readItems (w : World) (n : ℕ) : Option World :=
  match w.running[n]? with
  | some (.closing ctx input review) =>
    let items := w.db.itemsOf review.id
    if canClose (reviewProgress (items.map (·.decision))) then
      some { w with running := w.running.set n (.closingWith ctx input review items) }
    else some { w with running := w.running.eraseIdx n }
  | _ => none

def World.commit (w : World) (n : ℕ) (draw : Draw) : Option World := do
  let t ← w.running[n]?
  let db ← t.write w.db draw
  return { w with db, running := w.running.eraseIdx n }

def step (w : World) : Act → Option World
  | .begin call => w.begin call
  | .readItems n => w.readItems n
  | .commit n draw => w.commit n draw
  | .rollback n => (w.running[n]?).map fun _ => { w with running := w.running.eraseIdx n }
  | .sync dir => some { w with dir }

end Klick.AccessReviews
