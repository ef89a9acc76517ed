-- Findings of security scans (`lib/security/finding-rules.ts` and `import-service.ts`).
-- A finding is recognised by its fingerprint, over tools and products; a full scan
-- resolves the findings of its own scope that it does not report.
import Klick.Text
import Klick.Interleaving

open Js Interleaving

namespace Klick.Findings

/-! ## Findings -/

inductive FindingSeverity
  | critical | high | medium | low | info
deriving DecidableEq, Repr

inductive FindingCategory
  | dependency | secret | code | config | web | tls | dns | exposure | other
deriving DecidableEq, Repr

inductive FindingStatus
  | opened | inProgress | accepted | resolved | falsePositive
deriving DecidableEq, Repr

inductive ScanTool
  | sarif | trivy | zap | osv | nuclei | gitleaks | quickCheck | manual
deriving DecidableEq, Repr

/-- `SEVERITY_RANK` -/
def FindingSeverity.rank : FindingSeverity → ℕ
  | .critical => 0
  | .high => 1
  | .medium => 2
  | .low => 3
  | .info => 4

/-- `FINDING_SLA_DAYS` -/
def FindingSeverity.slaDays : FindingSeverity → Option ℤ
  | .critical => some 7
  | .high => some 30
  | .medium => some 90
  | .low => some 180
  | .info => none

def slaDueAt (severity : FindingSeverity) (firstSeen : ℤ) : Option ℤ :=
  severity.slaDays.map fun days => firstSeen + days * 86400000

/-- `CATEGORY_CONTROL` -/
def FindingCategory.control : FindingCategory → Text
  | .dependency => js "CC-OPS-03"
  | .secret => js "CC-CRY-03"
  | .code => js "CC-DEV-03"
  | .config => js "CC-OPS-04"
  | .web => js "CC-DEV-04"
  | .tls => js "CC-CRY-05"
  | .dns => js "CC-NET-03"
  | .exposure => js "CC-DEV-04"
  | .other => js "CC-OPS-03"

def FindingCategory.text : FindingCategory → Text
  | .dependency => js "dependency"
  | .secret => js "secret"
  | .code => js "code"
  | .config => js "config"
  | .web => js "web"
  | .tls => js "tls"
  | .dns => js "dns"
  | .exposure => js "exposure"
  | .other => js "other"

structure NormalizedFinding where
  ruleId : Text
  title : Text
  severity : FindingSeverity
  category : FindingCategory
  location : Option Text
  cve : Option Text
  package : Option Text
  toolFingerprint : Option Text
deriving DecidableEq

/-- What a scan was of. -/
structure Scope where
  tool : ScanTool
  target : Option Text
  productId : Option Text
deriving DecidableEq

structure FindingRow where
  id : Text
  fingerprint : Text
  scope : Scope
  ruleId : Text
  title : Text
  severity : FindingSeverity
  category : FindingCategory
  location : Option Text
  cve : Option Text
  packageName : Option Text
  status : FindingStatus
  statusNote : Option Text
  acceptedUntil : Option Text
  firstSeenAt : ℤ
  lastSeenAt : ℤ
  resolvedAt : Option ℤ
  reopenCount : ℕ
  dueAt : Option ℤ
  controlCode : Text
  lastScanId : Text
deriving DecidableEq

def FindingStatus.IsOpen (s : FindingStatus) : Prop := s = .opened ∨ s = .inProgress

/-- A person has decided that nothing is to be done. -/
def FindingStatus.IsDecided (s : FindingStatus) : Prop := s = .accepted ∨ s = .falsePositive

instance (s : FindingStatus) : Decidable s.IsOpen := inferInstanceAs (Decidable (_ ∨ _))

instance (s : FindingStatus) : Decidable s.IsDecided := inferInstanceAs (Decidable (_ ∨ _))

/-! ## Fingerprints -/

/-- `digest` is SHA-256, in hex digits. -/
def fingerprint (digest : Text → Text) (f : NormalizedFinding) (target : Option Text) : Text :=
  let own := [f.category.text, f.ruleId, f.location.getD [], target.getD []]
  let byTool := match f.toolFingerprint with
    | some t => if t = [] then own else [js "tfp", f.ruleId, t, target.getD []]
    | none => own
  let parts := match f.category, f.package with
    | .dependency, some name => [js "dep", f.cve.getD f.ruleId, name, target.getD []]
    | _, _ => byTool
  (digest (join 0 parts)).take 40

/-- The findings of a scan, each fingerprint once: the most severe one, where the first stood. -/
def addIncoming : List (Text × NormalizedFinding) → Text × NormalizedFinding →
    List (Text × NormalizedFinding)
  | [], new => [new]
  | old :: rest, new =>
    if old.1 = new.1 then
      (if new.2.severity.rank < old.2.severity.rank then new else old) :: rest
    else old :: addIncoming rest new

def incomingOf (digest : Text → Text) (findings : List NormalizedFinding) (target : Option Text) :
    List (Text × NormalizedFinding) :=
  (findings.map fun f => (fingerprint digest f target, f)).foldl addIncoming []

/-! ## Reconciling -/

structure ReconcilePlan where
  create : List Text
  seen : List Text
  reopen : List Text
  resolve : List Text
deriving DecidableEq

/-- `byFp.get`: of several rows, the last. -/
def byFp (existing : List FindingRow) (fp : Text) : Option FindingRow :=
  existing.reverse.find? fun e => e.fingerprint = fp

def reconcile (existing : List FindingRow) (incoming : List Text) (fullScan : Bool) :
    ReconcilePlan where
  create := incoming.filter fun fp => byFp existing fp = none
  seen := incoming.filterMap fun fp =>
    (byFp existing fp).bind fun e => if e.status = .resolved then none else some e.id
  reopen := incoming.filterMap fun fp =>
    (byFp existing fp).bind fun e => if e.status = .resolved then some e.id else none
  resolve :=
    if fullScan then
      existing.filterMap fun e =>
        if e.fingerprint ∉ incoming ∧ e.status.IsOpen then some e.id else none
    else []

/-! ## Imports -/

structure ImportInput where
  scope : Scope
  findings : List NormalizedFinding
  fullScan : Bool
  scanId : Text

structure ImportResult where
  rows : List FindingRow
  /-- `counts.new`, `counts.reopened` and `counts.resolved`. -/
  created : ℕ
  reopened : ℕ
  resolved : ℕ
  openSeverities : List FindingSeverity

section Import

variable (digest : Text → Text)

def ImportInput.incoming (input : ImportInput) : List (Text × NormalizedFinding) :=
  incomingOf digest input.findings input.scope.target

/-- The fingerprints that a scan reports. -/
def ImportInput.fps (input : ImportInput) : List Text := (input.incoming digest).map (·.1)

/-- A new finding; `newId` makes the random ids of this import. -/
def newRow (newId : Text → Text) (input : ImportInput) (now : ℤ) (fp : Text)
    (f : NormalizedFinding) : FindingRow where
  id := newId fp
  fingerprint := fp
  scope := input.scope
  ruleId := f.ruleId.take 300
  title := f.title.take 300
  severity := f.severity
  category := f.category
  location := f.location.map (·.take 1000)
  cve := f.cve
  packageName := f.package
  status := .opened
  statusNote := none
  acceptedUntil := none
  firstSeenAt := now
  lastSeenAt := now
  resolvedAt := none
  reopenCount := 0
  dueAt := slaDueAt f.severity now
  controlCode := f.category.control
  lastScanId := input.scanId

/-- `onConflictDoNothing` -/
def insertFinding (rows : List FindingRow) (row : FindingRow) : List FindingRow :=
  if rows.any fun r => r.fingerprint = row.fingerprint then rows else rows ++ [row]

def markSeen (scanId : Text) (now : ℤ) (r : FindingRow) : FindingRow :=
  { r with lastSeenAt := now, lastScanId := scanId }

def markReopened (scanId : Text) (now : ℤ) (r : FindingRow) : FindingRow :=
  { r with
    status := .opened
    resolvedAt := none
    lastSeenAt := now
    lastScanId := scanId
    reopenCount := r.reopenCount + 1
    statusNote := some (js "Wieder gefunden (Regression)") }

def markResolved (now : ℤ) (r : FindingRow) : FindingRow :=
  { r with
    status := .resolved
    resolvedAt := some now
    statusNote := some (js "Im Vollscan nicht mehr gefunden") }

def existingOf (rows : List FindingRow) (input : ImportInput) : List FindingRow :=
  rows.filter fun r => r.fingerprint ∈ input.fps digest ∨ r.scope = input.scope

def createdRows (newId : Text → Text) (input : ImportInput) (now : ℤ) (plan : ReconcilePlan) :
    List FindingRow :=
  plan.create.filterMap fun fp =>
    ((input.incoming digest).find? fun e => e.1 = fp).map fun e => newRow newId input now fp e.2

/-- `inArray(securityFindings.id, ids)` -/
def withIds (ids : List Text) (r : FindingRow) : Bool := r.id ∈ ids

def importScan (rows : List FindingRow) (newId : Text → Text) (input : ImportInput) (now : ℤ) :
    ImportResult :=
  let fps := input.fps digest
  let plan := reconcile (existingOf digest rows input) fps input.fullScan
  let created := createdRows digest newId input now plan
  let inserted := created.foldl insertFinding rows
  let seen := updateRows (withIds plan.seen) (markSeen input.scanId now) inserted
  let reopened := updateRows (withIds plan.reopen) (markReopened input.scanId now) seen
  let rows' := updateRows (withIds plan.resolve) (markResolved now) reopened
  let openRows := rows'.filter fun r => r.fingerprint ∈ fps ∧ r.status.IsOpen
  { rows := rows'
    created := created.length
    reopened := plan.reopen.length
    resolved := plan.resolve.length
    openSeverities := openRows.map (·.severity) }

end Import

end Klick.Findings
