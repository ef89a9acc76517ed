-- The coverage of the requirements of the selected frameworks by controls
-- (`lib/compliance/coverage.ts`): the status of each requirement, the buckets of frameworks,
-- sections and domains, the leverage of each control, and what a change of one control changes.
import Klick.Binary64
import Klick.Grouping

open Js OrderedMap

namespace Klick.Coverage

/-! ## The catalogue -/

inductive Domain
  | governance | risk | asset | access | crypto | physical | operations | network | development
  | supplier | incident | continuity | compliance | hr | aml | conduct | payments | custody | fraud
deriving DecidableEq

inductive LegalStatus
  | inForce | upcoming | draft | repealed
deriving DecidableEq

inductive ImplStatus
  | notStarted | planned | inProgress | implemented | notApplicable
deriving DecidableEq

structure ReqRef where
  framework : Text
  code : Text
  domain : Domain
  sectionCode : Option Text
  legalStatus : Option LegalStatus

/-- `framework:code` -/
def ReqRef.key (r : ReqRef) : Text := r.framework ++ ch ':' :: r.code

inductive EdgeCoverage
  | full | partly
deriving DecidableEq

structure Edge where
  control : Text
  requirement : Text
  coverage : EdgeCoverage

inductive ReqCoverage
  | covered | partly | unmet | notApplicable
deriving DecidableEq

/-- `RANK` -/
def ReqCoverage.rank : ReqCoverage → ℤ
  | .notApplicable => -1
  | .unmet => 0
  | .partly => 1
  | .covered => 2

/-- What coverage is derived from. An array has fewer than 2^32 elements. -/
structure CoverageInput where
  frameworks : List Text
  requirements : List ReqRef
  applicability : OrderedMap Text Bool
  edges : List Edge
  implStatus : OrderedMap Text ImplStatus
  requirements_length : requirements.length < 2 ^ 32

/-! ## The buckets -/

structure CoverageBucket where
  total : ℕ
  applicable : ℕ
  covered : ℕ
  partly : ℕ
  unmet : ℕ
  coveragePct : Option ℚ
  progressPct : Option ℚ
deriving DecidableEq

def emptyBucket : CoverageBucket := ⟨0, 0, 0, 0, 0, none, none⟩

def add (bucket : CoverageBucket) (status : ReqCoverage) : CoverageBucket :=
  let counted := { bucket with total := bucket.total + 1 }
  match status with
  | .notApplicable => counted
  | .covered =>
    { counted with applicable := bucket.applicable + 1, covered := bucket.covered + 1 }
  | .partly => { counted with applicable := bucket.applicable + 1, partly := bucket.partly + 1 }
  | .unmet => { counted with applicable := bucket.applicable + 1, unmet := bucket.unmet + 1 }

def round1 (n : ℚ) : ℚ := fl (mathRound (fl (n * 10)) / 10)

def coveragePctOf (covered applicable : ℕ) : ℚ :=
  round1 (fl (fl (covered / applicable) * 100))

def progressPctOf (covered partly applicable : ℕ) : ℚ :=
  round1 (fl (fl (fl (covered + fl (partly / 2)) / applicable) * 100))

def finalize (bucket : CoverageBucket) : CoverageBucket :=
  if bucket.applicable = 0 then { bucket with coveragePct := none, progressPct := none }
  else
    { bucket with
      coveragePct := some (coveragePctOf bucket.covered bucket.applicable)
      progressPct := some (progressPctOf bucket.covered bucket.partly bucket.applicable) }

/-! ## The derivation -/

def edgeStatus (coverage : EdgeCoverage) : ImplStatus → Option ReqCoverage
  | .notApplicable => none
  | .implemented => match coverage with
    | .full => some .covered
    | .partly => some .partly
  | .inProgress => some .partly
  | .notStarted => some .unmet
  | .planned => some .unmet

structure ControlLeverage where
  control : Text
  requirements : ℕ
  frameworks : ℕ
  score : ℚ
  satisfies : List Text

structure CoverageResult where
  byRequirement : OrderedMap Text ReqCoverage
  byFramework : OrderedMap Text CoverageBucket
  bySection : OrderedMap Text (OrderedMap Text CoverageBucket)
  byDomain : OrderedMap Text (OrderedMap Domain CoverageBucket)
  leverage : OrderedMap Text ControlLeverage
  total : CoverageBucket

namespace CoverageInput

variable (input : CoverageInput)

/-- `edgesByReq` -/
def edgesByReq : OrderedMap Text (List Edge) :=
  groupInto [] Edge.requirement (fun list e => list ++ [e]) .empty input.edges

def edgesOf (key : Text) : List Edge := (input.edgesByReq.get key).getD []

def implStatusOf (control : Text) : ImplStatus := (input.implStatus.get control).getD .notStarted

/-- What an edge gives the requirement it is on. -/
def statusBy (e : Edge) : Option ReqCoverage :=
  edgeStatus e.coverage (input.implStatusOf e.control)

def isApplicable (req : ReqRef) : Bool :=
  req.legalStatus ≠ some .repealed && input.applicability.get req.key ≠ some false

/-- A better status of an edge replaces the status so far. -/
def better (status : ReqCoverage) (e : Edge) : ReqCoverage :=
  match input.statusBy e with
  | some s => if status.rank < s.rank then s else status
  | none => status

def statusOf (req : ReqRef) : ReqCoverage :=
  if input.isApplicable req then (input.edgesOf req.key).foldl input.better .unmet
  else .notApplicable

/-- What an edge adds to the leverage of its control. -/
def lever (key : Text) (leverage : OrderedMap Text ControlLeverage) (e : Edge) :
    OrderedMap Text ControlLeverage :=
  match input.statusBy e with
  | some _ => leverage.upsert e.control ⟨e.control, 0, 0, 0, []⟩ fun lev =>
      { lev with
        requirements := lev.requirements + 1
        score := lev.score + match e.coverage with
          | .full => 1
          | .partly => 1 / 2
        satisfies := lev.satisfies ++ [key] }
  | none => leverage

def leverageOf (req : ReqRef) (leverage : OrderedMap Text ControlLeverage) :
    OrderedMap Text ControlLeverage :=
  if input.isApplicable req then (input.edgesOf req.key).foldl (input.lever req.key) leverage
  else leverage

/-- The maps before the first requirement. -/
def start : CoverageResult :=
  input.frameworks.foldl (fun t fw =>
    { t with
      byFramework := t.byFramework.set fw emptyBucket
      bySection := t.bySection.set fw .empty
      byDomain := t.byDomain.set fw .empty })
    ⟨.empty, .empty, .empty, .empty, .empty, emptyBucket⟩

/-- A requirement in the bucket of its group. -/
def addTo {K : Type} [DecidableEq K] (key : ReqRef → K) (buckets : OrderedMap K CoverageBucket)
    (req : ReqRef) : OrderedMap K CoverageBucket :=
  buckets.upsert (key req) emptyBucket fun b => add b (input.statusOf req)

def sectionOf (req : ReqRef) : Text := req.sectionCode.getD (js "_")

def step (t : CoverageResult) (req : ReqRef) : CoverageResult :=
  { byRequirement := t.byRequirement.set req.key (input.statusOf req)
    byFramework := input.addTo ReqRef.framework t.byFramework req
    bySection := t.bySection.upsert req.framework .empty fun sections =>
      input.addTo sectionOf sections req
    byDomain := t.byDomain.upsert req.framework .empty fun domains =>
      input.addTo ReqRef.domain domains req
    leverage := input.leverageOf req t.leverage
    total := add t.total (input.statusOf req) }

/-- The requirements of the selected frameworks. -/
def selected : List ReqRef :=
  input.requirements.filter fun req => req.framework ∈ input.frameworks

def finalizeLeverage (lev : ControlLeverage) : ControlLeverage :=
  { lev with
    frameworks := (lev.satisfies.map fun k => k.takeWhile (· ≠ ch ':')).dedup.length
    score := round1 lev.score }

end CoverageInput

open CoverageInput in
def deriveCoverage (input : CoverageInput) : CoverageResult :=
  let t := input.selected.foldl input.step input.start
  { t with
    byFramework := t.byFramework.mapValues finalize
    bySection := t.bySection.mapValues fun sections => sections.mapValues finalize
    byDomain := t.byDomain.mapValues fun domains => domains.mapValues finalize
    leverage := t.leverage.mapValues finalizeLeverage
    total := finalize t.total }

structure Affected where
  key : Text
  before : ReqCoverage
  after : ReqCoverage
deriving DecidableEq

structure FrameworkDelta where
  framework : Text
  before : Option ℚ
  after : Option ℚ

structure CoverageDelta where
  affected : List Affected
  frameworks : List FrameworkDelta

/-- The input after a control has changed its status. -/
def CoverageInput.change (input : CoverageInput) (control : Text) (newStatus : ImplStatus) :
    CoverageInput :=
  { input with implStatus := input.implStatus.set control newStatus }

def coverageDelta (input : CoverageInput) (control : Text) (newStatus : ImplStatus) :
    CoverageDelta :=
  let before := deriveCoverage input
  let after := deriveCoverage (input.change control newStatus)
  let pctOf (r : CoverageResult) (fw : Text) : Option ℚ :=
    (r.byFramework.get fw).bind CoverageBucket.coveragePct
  { affected := before.byRequirement.entries.filterMap fun (key, b) =>
      let a := (after.byRequirement.get key).getD b
      if a ≠ b then some ⟨key, b, a⟩ else none
    frameworks := input.frameworks.map fun fw => ⟨fw, pctOf before fw, pctOf after fw⟩ }

end Klick.Coverage
