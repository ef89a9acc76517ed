-- The hourly compliance tick (`lib/jobs/compliance-tick.ts` and `compliance-tick-runner.ts`)
-- beside people at work. The tick reads its rows, derives actions from them and writes these
-- much later, in one transaction at READ COMMITTED: each statement sees what is committed by
-- then, and a row that it has written is locked until it commits.
import Klick.Findings

open Js Interleaving

namespace Klick.ComplianceTick

/-! ## Rows -/

inductive ExceptionStatus
  | requested | approved | expired | revoked
deriving DecidableEq, Repr

inductive TrainingStatus
  | due | overdue | done
deriving DecidableEq, Repr

inductive RunStatus
  | upcoming | due | done | overdue | waived
deriving DecidableEq, Repr

/-- What a person decides about a run. -/
inductive RunDecision
  | done | waived
deriving DecidableEq, Repr

def RunDecision.status : RunDecision → RunStatus
  | .done => .done
  | .waived => .waived

structure ExceptionRow where
  id : Text
  validUntil : ℤ
  status : ExceptionStatus
  /-- The status that a person gave it last; no statement reads it. -/
  decided : ExceptionStatus
deriving DecidableEq

structure TrainingRow where
  id : Text
  dueAt : ℤ
  status : TrainingStatus
  /-- It was finished, and not given out again since; no statement reads it. -/
  finished : Bool
deriving DecidableEq

/-- A run, with the columns of its obligation. -/
structure RunRow where
  id : Text
  obligationId : Text
  dueAt : ℤ
  leadDays : ℤ
  active : Bool
  status : RunStatus
  /-- What a person has decided; no statement reads it. -/
  decided : Option RunDecision
deriving DecidableEq

structure FindingRow where
  id : Text
  status : Findings.FindingStatus
  acceptedUntil : Option ℤ
deriving DecidableEq

/-- A run that was planned just now. -/
def plannedRun (id obligationId : Text) (dueAt leadDays : ℤ) : RunRow :=
  ⟨id, obligationId, dueAt, leadDays, true, .upcoming, none⟩

/-! ## Actions of the tick -/

inductive TickAction
  | expireException (id : Text)
  | markTrainingOverdue (id : Text)
  | markRunDue (id : Text)
  | markRunOverdue (id : Text)
  | reopenFinding (id : Text)
deriving DecidableEq, Repr

/-- A row of one of the tables. -/
inductive RowRef
  | exception (id : Text)
  | training (id : Text)
  | run (id : Text)
  | finding (id : Text)
deriving DecidableEq, Repr

/-- The row that an action writes. -/
def TickAction.row : TickAction → RowRef
  | .expireException id => .exception id
  | .markTrainingOverdue id => .training id
  | .markRunDue id => .run id
  | .markRunOverdue id => .run id
  | .reopenFinding id => .finding id

/-- `DAY` -/
def dayMs : ℤ := 86400000

/-- `Math.ceil((d - now) / DAY)` -/
def daysUntil (now d : ℤ) : ℤ := -((now - d) / dayMs)

def exceptionAction (now : ℤ) (x : ExceptionRow) : Option TickAction :=
  if x.status ≠ .approved ∧ x.status ≠ .requested then none
  else if x.validUntil ≤ now then some (.expireException x.id)
  else none

def trainingAction (now : ℤ) (ta : TrainingRow) : Option TickAction :=
  if ta.status = .done then none
  else if ta.dueAt < now ∧ ta.status = .due then some (.markTrainingOverdue ta.id)
  else none

def runAction (now : ℤ) (run : RunRow) : Option TickAction :=
  if run.status = .done ∨ run.status = .waived then none
  else if run.dueAt + dayMs - 1 < now then
    if run.status ≠ .overdue then some (.markRunOverdue run.id) else none
  else if run.dueAt - run.leadDays * dayMs ≤ now ∧ run.status = .upcoming then
    some (.markRunDue run.id)
  else none

def findingAction (now : ℤ) (f : FindingRow) : Option TickAction :=
  if f.status = .accepted then
    match f.acceptedUntil with
    | none => none
    | some until_ => if 0 < daysUntil now until_ then none else some (.reopenFinding f.id)
  else none

/-- The rows that the tick has read. -/
structure DueRows where
  exceptions : List ExceptionRow
  trainingAssignments : List TrainingRow
  obligationRuns : List RunRow
  securityFindings : List FindingRow
deriving DecidableEq

def collectDueItems (now : ℤ) (rows : DueRows) : List TickAction :=
  rows.exceptions.filterMap (exceptionAction now) ++
    rows.trainingAssignments.filterMap (trainingAction now) ++
    rows.obligationRuns.filterMap (runAction now) ++
    rows.securityFindings.filterMap (findingAction now)

/-! ## The tick and the people -/

/-- How far the transaction of the tick has come. -/
inductive Stage
  /-- So many of the four tables are read. -/
  | loading (tables : ℕ)
  /-- The actions that are left; of the first, the row may have been read again. -/
  | applying (actions : List TickAction) (selected : Bool)
deriving DecidableEq

structure Tick where
  now : ℤ
  /-- New runs, which only the tick sees. -/
  planned : List RunRow
  rows : DueRows
  stage : Stage
  /-- What it has written. -/
  writes : List TickAction
deriving DecidableEq

/-- The actions that are still to come, of the rows read so far. -/
def Tick.upcoming (t : Tick) : List TickAction :=
  match t.stage with
  | .loading _ => collectDueItems t.now t.rows
  | .applying actions _ => actions

structure World where
  clock : ℤ
  exceptions : List ExceptionRow
  trainings : List TrainingRow
  runs : List RunRow
  findings : List FindingRow
  tick : Option Tick

inductive Act
  | pass (t : ℤ)
  /-- `loadDueRows`, after `planObligationRuns` -/
  | tickStart (now : ℤ) (planned : List RunRow)
  | tickLoad
  /-- `collectDueItems` -/
  | tickCollect
  /-- `applyTick`: the status of a row is read, then the row is written. -/
  | tickSelect
  | tickUpdate
  | tickCommit
  | tickAbort
  | completeRun (id : Text)
  | waiveRun (id : Text)
  | planRun (row : RunRow)
  | updateObligation (obligationId : Text) (leadDays : ℤ) (active : Bool)
  /-- `completeAssignments`, of the rows it has read as open -/
  | finishTrainings (ids : List Text)
  /-- `assignTraining`: an open row is given out again. -/
  | assignTraining (id : Text) (dueAt : ℤ)
  | addTraining (id : Text) (dueAt : ℤ)
  | unassignTraining (id : Text)
  /-- `createException`, also to renew one -/
  | createException (id : Text) (validUntil : ℤ) (approved : Bool)
  | decideException (id : Text) (approved : Bool)
  | decideFinding (id : Text) (status : Findings.FindingStatus) (acceptedUntil : Option ℤ)

namespace World

def setExceptions (w : World) (p : ExceptionRow → Bool) (f : ExceptionRow → ExceptionRow) : World :=
  { w with exceptions := updateRows p f w.exceptions }

def setTrainings (w : World) (p : TrainingRow → Bool) (f : TrainingRow → TrainingRow) : World :=
  { w with trainings := updateRows p f w.trainings }

def setRuns (w : World) (p : RunRow → Bool) (f : RunRow → RunRow) : World :=
  { w with runs := updateRows p f w.runs }

def setFindings (w : World) (p : FindingRow → Bool) (f : FindingRow → FindingRow) : World :=
  { w with findings := updateRows p f w.findings }

/-- What an update of the tick sets. -/
def apply (w : World) : TickAction → World
  | .expireException id => w.setExceptions (·.id = id) fun x => { x with status := .expired }
  | .markTrainingOverdue id => w.setTrainings (fun ta => ta.id = id && ta.status = .due) fun ta =>
      { ta with status := .overdue }
  | .markRunDue id => w.setRuns (·.id = id) fun r => { r with status := .due }
  | .markRunOverdue id => w.setRuns (·.id = id) fun r => { r with status := .overdue }
  | .reopenFinding id => w.setFindings (·.id = id) fun f =>
      { f with status := .opened, acceptedUntil := none }

/-- The tick has written a row and not committed yet. -/
def Locked (w : World) (row : RowRef) : Prop := ∃ t ∈ w.tick, ∃ a ∈ t.writes, a.row = row

instance (w : World) (row : RowRef) : Decidable (w.Locked row) := by
  unfold Locked
  infer_instance

def setTick (w : World) (t : Tick) : World := { w with tick := some t }

def commit (w : World) (t : Tick) : World :=
  t.writes.foldl apply { w with runs := w.runs ++ t.planned, tick := none }

end World

/-- `inArray(exceptions.status, ["requested", "approved"])` -/
def isOpenException (x : ExceptionRow) : Bool := x.status = .requested || x.status = .approved

/-- `inArray(obligationRuns.status, ["upcoming", "due", "overdue"])`, of active obligations -/
def isDueRun (r : RunRow) : Bool :=
  (r.status = .upcoming || r.status = .due || r.status = .overdue) && r.active

/-- The next table is read. -/
def loadRows (w : World) (t : Tick) : ℕ → Option DueRows
  | 0 => some { t.rows with exceptions := w.exceptions.filter isOpenException }
  | 1 => some { t.rows with trainingAssignments := w.trainings.filter (·.status ≠ .done) }
  | 2 => some { t.rows with obligationRuns := (w.runs ++ t.planned).filter isDueRun }
  | 3 => some { t.rows with securityFindings := w.findings.filter (·.status = .accepted) }
  | _ => none

/-- What `applyTick` reads before an update: whether to go on with it. -/
def selectRow (w : World) : TickAction → Option Bool
  | .expireException id => some (w.exceptions.any fun x => x.id = id)
  | .reopenFinding id => some (w.findings.any fun f => f.id = id && f.status = .accepted)
  | _ => none

/-- An update whose condition no row meets writes nothing. -/
def updates (w : World) : TickAction → Bool
  | .markTrainingOverdue id => w.trainings.any fun ta => ta.id = id && ta.status = .due
  | _ => true

/-- One step of the tick. -/
def tickStep (w : World) (t : Tick) : Act → Option World
  | .tickLoad =>
    match t.stage with
    | .loading n => (loadRows w t n).map fun rows =>
        w.setTick { t with rows, stage := .loading (n + 1) }
    | _ => none
  | .tickCollect =>
    if t.stage = .loading 4 then
      some (w.setTick { t with stage := .applying (collectDueItems t.now t.rows) false })
    else none
  | .tickSelect =>
    match t.stage with
    | .applying (a :: rest) false => (selectRow w a).map fun goOn =>
        w.setTick { t with stage := if goOn then .applying (a :: rest) true else .applying rest false }
    | _ => none
  | .tickUpdate =>
    match t.stage with
    | .applying (a :: rest) selected =>
      if selected = (selectRow w a).isSome then
        some (w.setTick { t with
          stage := .applying rest false
          writes := if updates w a then t.writes ++ [a] else t.writes })
      else none
    | _ => none
  | .tickCommit => if t.stage = .applying [] false then some (w.commit t) else none
  | .tickAbort => some { w with tick := none }
  | _ => none

/-- One step of anybody. -/
def step (w : World) : Act → Option World
  | .pass t => if w.clock ≤ t then some { w with clock := t } else none
  | .tickStart now planned =>
    -- the primary key; the ids of new runs are random
    if w.tick = none ∧ now ≤ w.clock ∧ (∀ r ∈ planned, r.status = .upcoming ∧ r.decided = none) ∧
        ((w.runs ++ planned).map (·.id)).Nodup then
      some { w with tick := some ⟨now, planned, ⟨[], [], [], []⟩, .loading 0, []⟩ }
    else none
  | .completeRun id =>
    if w.Locked (.run id) then none
    else some (w.setRuns (·.id = id) fun r => { r with status := .done, decided := some .done })
  | .waiveRun id =>
    if w.Locked (.run id) then none
    else some (w.setRuns (·.id = id) fun r =>
      { r with status := .waived, decided := some .waived })
  | .planRun row =>
    if row.status = .upcoming ∧ row.decided = none ∧ (∀ r ∈ w.runs, r.id ≠ row.id) ∧
        ∀ t ∈ w.tick, ∀ r ∈ t.planned, r.id ≠ row.id then
      some { w with runs := w.runs ++ [row] }
    else none
  | .updateObligation obligationId leadDays active =>
    some (w.setRuns (·.obligationId = obligationId) fun r => { r with leadDays, active })
  | .finishTrainings ids =>
    if ∃ id ∈ ids, w.Locked (.training id) then none
    else some (w.setTrainings (·.id ∈ ids) fun ta => { ta with status := .done, finished := true })
  | .assignTraining id dueAt =>
    if w.Locked (.training id) then none
    else some (w.setTrainings (·.id = id) fun ta =>
      { ta with dueAt, status := .due, finished := false })
  | .addTraining id dueAt =>
    some { w with trainings := w.trainings ++ [⟨id, dueAt, .due, false⟩] }
  | .unassignTraining id =>
    if w.Locked (.training id) then none
    else some { w with trainings := w.trainings.filter fun ta => ta.id ≠ id }
  | .createException id validUntil approved =>
    let status := if approved then .approved else .requested
    if ∃ x ∈ w.exceptions, x.id = id then none
    else some { w with exceptions := w.exceptions ++ [⟨id, validUntil, status, status⟩] }
  | .decideException id approved =>
    let status := if approved then .approved else .revoked
    if w.Locked (.exception id) then none
    else some (w.setExceptions (·.id = id) fun x => { x with status, decided := status })
  | .decideFinding id status acceptedUntil =>
    if w.Locked (.finding id) then none
    else some (w.setFindings (·.id = id) fun f => { f with status, acceptedUntil })
  | .tickLoad => w.tick.bind fun t => tickStep w t .tickLoad
  | .tickCollect => w.tick.bind fun t => tickStep w t .tickCollect
  | .tickSelect => w.tick.bind fun t => tickStep w t .tickSelect
  | .tickUpdate => w.tick.bind fun t => tickStep w t .tickUpdate
  | .tickCommit => w.tick.bind fun t => tickStep w t .tickCommit
  | .tickAbort => w.tick.bind fun t => tickStep w t .tickAbort

end Klick.ComplianceTick
