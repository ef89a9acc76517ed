-- The risk method of an organisation: the value of a pair of levels by sum, product or
-- matrix, the classes over its range, what the check of a method says, and the classes
-- stretched to another range when the formula changes.
import Klick.Binary64
import Klick.Coercion
import Klick.Distinct
import Klick.Intervals

namespace Klick.Risk

open Js Intervals

/-! ## The method -/

inductive RiskZone where
  | acceptable
  | tolerable
  | unacceptable
deriving DecidableEq, Repr

/-- `ZONE_RANK` -/
def RiskZone.rank : RiskZone → ℕ
  | .acceptable => 0
  | .tolerable => 1
  | .unacceptable => 2

inductive RiskAcceptanceStep where
  | departmentHead
  | managementBody
deriving DecidableEq, Repr

inductive Aggregation where
  | sum
  | product
  | matrix
deriving DecidableEq, Repr

structure RiskLevelText where
  label : Text
  anchor : Text
deriving DecidableEq

structure RiskDimension where
  key : Text
  label : Text
  enabled : Bool
  anchors : List Text
deriving DecidableEq

/-- A class of risks. Its borders are integers by the schema of the form. -/
structure RiskClass where
  key : Text
  label : Text
  min : ℤ
  max : ℤ
  zone : RiskZone
  meaning : Text
  acceptance : Option (List RiskAcceptanceStep)
deriving DecidableEq

structure RiskMethod where
  aggregation : Aggregation
  likelihood : List RiskLevelText
  impact : List Text
  dimensions : List RiskDimension
  classes : List RiskClass
  matrix : Option (List (List Text))
deriving DecidableEq

/-- What the range and the calculation need: the number of levels, the keys of the classes. -/
structure ScoreBasis where
  aggregation : Aggregation
  likelihood : Option ℕ
  classes : Option (List Text)
  matrix : Option (List (List Text))

def RiskMethod.basis (m : RiskMethod) : ScoreBasis :=
  ⟨m.aggregation, some m.likelihood.length, some (m.classes.map (·.key)), m.matrix⟩

/-! ## Scores -/

structure ScoreRange where
  min : ℤ
  max : ℤ
deriving DecidableEq

def levelCount (basis : ScoreBasis) : ℕ := if basis.likelihood = some 4 then 4 else 5

def scoreRange (basis : ScoreBasis) : ScoreRange :=
  let n := levelCount basis
  match basis.aggregation with
  | .matrix => ⟨1, max 1 ((basis.classes.map List.length).getD n)⟩
  | .sum => ⟨2, 2 * n⟩
  | .product => ⟨1, n * n⟩

/-- A level within the levels of the method; a number that is not finite is the middle. -/
def clampLevel (n : Option ℚ) (top : ℕ) : ℤ :=
  let v := mathRound (n.getD ⌈(top : ℚ) / 2⌉)
  min top (max 1 v)

/-- The value of a pair of levels; with a matrix the number of the class in its field. -/
def aggregate (likelihood impact : Option ℚ) (basis : ScoreBasis) : ℤ :=
  let n := levelCount basis
  let l := clampLevel likelihood n
  let i := clampLevel impact n
  match basis.aggregation with
  | .matrix =>
    let key := basis.matrix.bind fun rows =>
      (rows[(l - 1).toNat]?).bind fun row => row[(i - 1).toNat]?
    match basis.classes.bind fun keys => keys.findIdx? fun k => some k = key with
    | some idx => idx + 1
    | none => 1
  | .sum => l + i
  | .product => l * i

/-! ## Classes of scores -/

structure ClassResult where
  key : Text
  label : Text
  zone : RiskZone
  meaning : Text
  index : ℕ
  acceptance : Option (List RiskAcceptanceStep)
deriving DecidableEq

/-- The place of the class of a score; outside of all classes the first or the last. -/
def classIndex (score : ℤ) (classes : List RiskClass) : ℤ :=
  match placeOf RiskClass.min RiskClass.max score classes with
  | some idx => idx
  | none => if score < (classes.head?.map (·.min)).getD 0 then 0 else classes.length - 1

def classify (score : ℤ) (classes : List RiskClass) : ClassResult :=
  let idx := classIndex score classes
  match classes[idx.toNat]? with
  | some c => ⟨c.key, c.label, c.zone, c.meaning, idx.toNat, c.acceptance⟩
  | none => ⟨js "unknown", js "—", .unacceptable, [], idx.toNat, none⟩

/-! ## The check of a method -/

inductive RiskMethodIssue where
  | noClasses
  | classGap
  | classOrder
  | classRange
  | zoneOrder
  | duplicateKey
  | emptyLabel
  | noDimension
  | levelCount
  | matrixInvalid
deriving DecidableEq, Repr

/-- An issue where a check fails. -/
def issueIf (p : Prop) [Decidable p] (issue : RiskMethodIssue) : List RiskMethodIssue :=
  if p then [issue] else []

/-- The issues of the classes one after the other. -/
def classIssues : Option RiskClass → List RiskClass → List RiskMethodIssue
  | _, [] => []
  | prev, c :: rest =>
    issueIf (c.max < c.min) .classOrder ++
    issueIf (trim c.label = []) .emptyLabel ++
    (match prev with
      | some p =>
        issueIf (c.min ≠ p.max + 1) .classGap ++ issueIf (c.zone.rank < p.zone.rank) .zoneOrder
      | none => []) ++
    classIssues (some c) rest

/-- The first class starts and the last one ends with the range. -/
def rangeIssues (range : ScoreRange) (classes : List RiskClass) : List RiskMethodIssue :=
  issueIf (0 < classes.length ∧ (classes.head?.map (·.min) ≠ some range.min ∨
    classes.getLast?.map (·.max) ≠ some range.max)) .classRange

/-- The issues of the texts and levels of a method, whatever its formula. -/
def textIssues (m : RiskMethod) : List RiskMethodIssue :=
  let n := m.likelihood.length
  issueIf (¬ (m.classes.map (·.key) ++ m.dimensions.map (·.key)).Nodup) .duplicateKey ++
  issueIf (¬ ∃ d ∈ m.dimensions, d.enabled) .noDimension ++
  issueIf (∃ d ∈ m.dimensions, trim d.label = []) .emptyLabel ++
  issueIf (∃ l ∈ m.likelihood, trim l.label = []) .emptyLabel ++
  issueIf (∃ l ∈ m.impact, trim l = []) .emptyLabel ++
  issueIf ((n ≠ 4 ∧ n ≠ 5) ∨ m.impact.length ≠ n ∨ ∃ d ∈ m.dimensions, d.anchors.length ≠ n)
    .levelCount

/-- With a matrix each field has a class. -/
def matrixIssues (m : RiskMethod) : List RiskMethodIssue :=
  let n := m.likelihood.length
  match m.aggregation with
  | .matrix =>
    match m.matrix with
    | some rows =>
      issueIf (rows.length ≠ n ∨ ∃ row ∈ rows, row.length ≠ n ∨
        ∃ k ∈ row, k ∉ m.classes.map (·.key)) .matrixInvalid
    | none => [.matrixInvalid]
  | _ => []

def validateRiskMethod (m : RiskMethod) : List RiskMethodIssue :=
  distinct <|
    issueIf (m.classes.length < 2) .noClasses ++ classIssues none m.classes ++
    rangeIssues (scoreRange m.basis) m.classes ++ textIssues m ++ matrixIssues m

/-! ## A change of the formula -/

/-- A border in the new range, in the same proportion. -/
def scale (a b : ScoreRange) (v : ℤ) : ℤ :=
  mathRound (fl (b.min + fl (fl (((v - a.min : ℤ) : ℚ) / ((a.max - a.min : ℤ) : ℚ)) *
    ((b.max - b.min : ℤ) : ℚ))))

/-- The classes one after the other from a border on; the last one ends with the range. -/
def stretch (a b : ScoreRange) : ℤ → List RiskClass → List RiskClass
  | _, [] => []
  | low, c :: rest =>
    let high := if rest = [] then b.max else max low (scale a b c.max)
    { c with min := low, max := high } :: stretch a b (high + 1) rest

/-- Each class gets its number, as the fields of a matrix have it. -/
def numbered (classes : List RiskClass) : List RiskClass :=
  classes.mapIdx fun i c => { c with min := i + 1, max := i + 1 }

def rescaleClasses (classes : List RiskClass) (old new : ScoreBasis) : List RiskClass :=
  match new.aggregation with
  | .matrix => numbered classes
  | _ =>
    let a := scoreRange { old with classes := some (classes.map (·.key)) }
    let b := scoreRange { new with classes := some (classes.map (·.key)) }
    if a.min = b.min ∧ a.max = b.max then classes else stretch a b b.min classes

/-- The method after the choice of another formula. With a matrix the settings then fill
the fields that it lacks. -/
def RiskMethod.changed (m : RiskMethod) (aggregation : Aggregation) : RiskMethod :=
  let draft := { m with aggregation }
  { draft with classes := rescaleClasses m.classes m.basis draft.basis }

end Klick.Risk
