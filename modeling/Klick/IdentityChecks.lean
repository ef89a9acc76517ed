-- The checks of identities over the runs of the evaluation: when a check records a test of
-- its control, and when a failed test opens a nonconformity.
import Klick.CivilDays
import Klick.Interleaving

namespace Klick.Identity

open Js Interleaving

/-! ## The rules -/

inductive CheckOutcome where
  | pass
  | partly
  | fail
  | notAssessable
deriving DecidableEq, Repr

/-- `TEST_REPEAT_DAYS` -/
def testRepeatDays : ℤ := 30

/-- `NONCONFORMITY_AFTER_DAYS` -/
def nonconformityAfterDays : ℤ := 7

def testDue (result : CheckOutcome) (lastTestResult : Option CheckOutcome)
    (lastTestAt : Option ℤ) (now : ℤ) : Bool :=
  if result = .notAssessable then false
  else
    match lastTestAt with
    | none => true
    | some lastTestAt =>
      if some result ≠ lastTestResult then true
      else testRepeatDays * msPerDay ≤ now - lastTestAt

def nonconformityDue (result : CheckOutcome) (connectedAt now : ℤ) (openNonconformity : Bool) :
    Bool :=
  if result ≠ .fail ∨ openNonconformity then false
  else nonconformityAfterDays * msPerDay ≤ now - connectedAt

/-! ## The tables -/

inductive IdentityCheckKey where
  | mfa
  | privileged
  | leavers
  | recert
deriving DecidableEq, Repr

/-- `IDENTITY_CHECKS` -/
def IdentityCheckKey.controlCode : IdentityCheckKey → Text
  | .mfa => js "CC-IAM-03"
  | .privileged => js "CC-IAM-04"
  | .leavers => js "CC-IAM-02"
  | .recert => js "CC-IAM-05"

/-- A row of `identity_check_results`. -/
structure CheckRow where
  result : CheckOutcome
  checkedAt : ℤ
  lastTestAt : Option ℤ
  lastTestResult : Option CheckOutcome
  lastTestId : Option ℕ

structure Implementation where
  id : ℕ
  controlCode : Text

inductive TestMethod where
  | automated
  | manual
deriving DecidableEq, Repr

/-- A row of `control_tests`; what a person has tested may have no result yet. -/
structure ControlTest where
  id : ℕ
  implementationId : ℕ
  method : TestMethod
  testedAt : Option ℤ
  result : Option CheckOutcome

inductive NonconformitySource where
  | controlTest
  | other
deriving DecidableEq, Repr

structure Nonconformity where
  source : NonconformitySource
  sourceRefId : Option ℕ
  closed : Bool

/-- What a check did at a run: the open nonconformity it saw, the test it recorded and
whether it opened a nonconformity. -/
structure Entry where
  now : ℤ
  result : CheckOutcome
  connectedAt : Option ℤ
  implemented : Bool
  sawOpen : Bool
  tested : Bool
  raised : Bool

/-- The tables of an organisation, the time of the last run, and for each check what it did
so far, the last first. -/
structure World where
  rows : IdentityCheckKey → Option CheckRow
  implementations : List Implementation
  tests : List ControlTest
  nonconformities : List Nonconformity
  clock : ℤ
  history : IdentityCheckKey → List Entry

def implementationFor (w : World) (controlCode : Text) : Option ℕ :=
  (w.implementations.find? fun i => i.controlCode = controlCode).map (·.id)

/-- An open nonconformity from an automated test of the control? -/
def openIdentityNonconformity (w : World) (implementationId : ℕ) : Bool :=
  w.nonconformities.any fun n => n.source = .controlTest && !n.closed &&
    w.tests.any fun t => some t.id = n.sourceRefId && t.implementationId = implementationId &&
      t.method = .automated

/-! ## A run -/

/-- What a run gives to `writeCheckResult`, and the id that the database gives to a test. -/
structure CheckResult where
  key : IdentityCheckKey
  result : CheckOutcome
  now : ℤ
  connectedAt : Option ℤ
  testId : ℕ

/-- `insertControlTest` for an automated test: a nonconformity only for one that failed. -/
def insertControlTest (w : World) (r : CheckResult) (implementationId : ℕ) (raise : Bool) : World :=
  { w with
    tests := ⟨r.testId, implementationId, .automated, some r.now, some r.result⟩ :: w.tests
    nonconformities :=
      if r.result = .fail ∧ raise then ⟨.controlTest, some r.testId, false⟩ :: w.nonconformities
      else w.nonconformities }

/-- The implementation that a test is recorded for: where a test is due, that of the control. -/
def testedImplementation (w : World) (r : CheckResult) : Option ℕ :=
  let prev := w.rows r.key
  if testDue r.result (prev.bind (·.lastTestResult)) (prev.bind (·.lastTestAt)) r.now ∧
      r.result ≠ .notAssessable then
    implementationFor w r.key.controlCode
  else none

/-- Whether the test is to open a nonconformity. -/
def raise (w : World) (r : CheckResult) (implementationId : ℕ) : Bool :=
  nonconformityDue r.result (r.connectedAt.getD r.now) r.now
    (openIdentityNonconformity w implementationId)

/-- What a run does, as the history keeps it. -/
def entryOf (w : World) (r : CheckResult) : Entry :=
  let found := implementationFor w r.key.controlCode
  let impl := testedImplementation w r
  { now := r.now
    result := r.result
    connectedAt := r.connectedAt
    implemented := found.isSome
    sawOpen := found.any (openIdentityNonconformity w)
    tested := impl.isSome
    raised := impl.any fun i => r.result = .fail && raise w r i }

def writeCheckResult (w : World) (r : CheckResult) : World :=
  let prev := w.rows r.key
  let impl := testedImplementation w r
  let w' := match impl with
    | some i => insertControlTest w r i (raise w r i)
    | none => w
  let row : CheckRow :=
    { result := r.result
      checkedAt := r.now
      lastTestAt := if impl.isSome then some r.now else prev.bind (·.lastTestAt)
      lastTestResult := if impl.isSome then some r.result else prev.bind (·.lastTestResult)
      lastTestId := if impl.isSome then some r.testId else prev.bind (·.lastTestId) }
  { w' with
    rows := Function.update w.rows r.key (some row)
    clock := r.now
    history := Function.update w.history r.key (entryOf w r :: w.history r.key) }

/-- A check writes its result, or others write the tables of controls, tests and
nonconformities as they like. -/
inductive Act where
  | check (r : CheckResult)
  | others (implementations : List Implementation) (tests : List ControlTest)
      (nonconformities : List Nonconformity)

/-- The times of the runs never go back. -/
def step (w : World) (a : Act) : Option World :=
  match a with
  | .check r => if w.clock ≤ r.now then some (writeCheckResult w r) else none
  | .others implementations tests nonconformities =>
    some { w with implementations, tests, nonconformities }

/-- The run of `evaluateIdentityChecks`: one check after the other, at one time. -/
def evaluateIdentityChecks (now : ℤ) (connectedAt : Option ℤ)
    (results : IdentityCheckKey → CheckOutcome) (testId : IdentityCheckKey → ℕ) : List Act :=
  [.mfa, .privileged, .leavers, .recert].map fun key =>
    .check ⟨key, results key, now, connectedAt, testId key⟩

/-- No run so far. -/
def World.start (implementations : List Implementation) (tests : List ControlTest)
    (nonconformities : List Nonconformity) (clock : ℤ) : World :=
  ⟨fun _ => none, implementations, tests, nonconformities, clock, fun _ => []⟩

/-! ## The law -/

/-- A test keeps thirty days from the last one, unless the result has changed. -/
def KeepsRhythm (e : Entry) (past : List Entry) : Prop :=
  e.tested = true → e.result ≠ .notAssessable ∧
    ∀ last, past.find? (·.tested) = some last →
      last.result ≠ e.result ∨ testRepeatDays * msPerDay ≤ e.now - last.now

/-- A nonconformity is opened for a failure, a week after the connection or later, and where
none is open. -/
def RaisesInTime (e : Entry) : Prop :=
  e.raised = true → e.result = .fail ∧ e.sawOpen = false ∧
    ∃ connectedAt, e.connectedAt = some connectedAt ∧
      nonconformityAfterDays * msPerDay ≤ e.now - connectedAt

/-- The first run a week after the connection or later, of a check that has failed at every
run since, where the control is implemented and no nonconformity was opened yet. -/
structure FirstAfterWeek (w : World) (r : CheckResult) (connectedAt : ℤ) : Prop where
  result : r.result = .fail
  implementation : ∃ i, implementationFor w r.key.controlCode = some i ∧
    openIdentityNonconformity w i = false
  connected : r.connectedAt = some connectedAt
  after : nonconformityAfterDays * msPerDay ≤ r.now - connectedAt
  since : ∀ p ∈ w.history r.key, connectedAt ≤ p.now → p.result = .fail ∧
    p.implemented = true ∧ p.connectedAt = some connectedAt ∧ p.raised = false ∧
      p.now - connectedAt < nonconformityAfterDays * msPerDay

/-- The run of a check writes what its entry says, and in time. -/
structure InTime (w : World) (r : CheckResult) (w' : World) (e : Entry) : Prop where
  entry : e.now = r.now ∧ e.result = r.result ∧ e.connectedAt = r.connectedAt
  history : w'.history = Function.update w.history r.key (e :: w.history r.key)
  tests : if e.tested then
      ∃ i, w'.tests = ⟨r.testId, i, .automated, some r.now, some r.result⟩ :: w.tests
    else w'.tests = w.tests
  nonconformities : w'.nonconformities =
    if e.raised then ⟨.controlTest, some r.testId, false⟩ :: w.nonconformities
    else w.nonconformities
  rhythm : KeepsRhythm e (w.history r.key)
  raises : RaisesInTime e
  first : ∀ connectedAt, FirstAfterWeek w r connectedAt → e.raised = true

def ActsInTime (w : World) : Act → Prop
  | .check r => ∀ w', step w (.check r) = some w' → ∃ e, InTime w r w' e
  | .others _ _ _ => True

/-- At the first run after the week the rhythm of the tests wants one. -/
def TestDueAfterWeek (w : World) : Act → Prop
  | .check r => ∀ connectedAt, w.clock ≤ r.now → FirstAfterWeek w r connectedAt →
      testDue r.result ((w.rows r.key).bind (·.lastTestResult))
        ((w.rows r.key).bind (·.lastTestAt)) r.now = true
  | .others _ _ _ => True

/-! ## The rows and what was done -/

/-- The row of a check remembers its last test. -/
def Remembers (w : World) : Prop :=
  ∀ key, (w.rows key).bind (·.lastTestAt) =
      ((w.history key).find? (·.tested)).map (·.now) ∧
    (w.rows key).bind (·.lastTestResult) = ((w.history key).find? (·.tested)).map (·.result)

theorem start_remembers (implementations : List Implementation) (tests : List ControlTest)
    (nonconformities : List Nonconformity) (clock : ℤ) :
    Remembers (World.start implementations tests nonconformities clock) :=
  fun _ => ⟨rfl, rfl⟩

theorem writeCheckResult_remembers {w : World} (h : Remembers w) (r : CheckResult) :
    Remembers (writeCheckResult w r) := by
  intro key
  by_cases hkey : key = r.key
  · subst hkey
    unfold writeCheckResult
    dsimp only
    rw [Function.update_self, Function.update_self]
    rw [List.find?_cons]
    unfold entryOf
    dsimp only
    cases testedImplementation w r with
    | none => exact h r.key
    | some i => exact ⟨rfl, rfl⟩
  · unfold writeCheckResult
    dsimp only
    rw [Function.update_of_ne hkey, Function.update_of_ne hkey]
    exact h key

theorem step_remembers {w w' : World} {a : Act} (h : Remembers w) (hstep : step w a = some w') :
    Remembers w' := by
  cases a with
  | check r =>
    unfold step at hstep
    dsimp only at hstep
    split at hstep
    · obtain rfl := Option.some.inj hstep
      exact writeCheckResult_remembers h r
    · cases hstep
  | others implementations tests nonconformities =>
    obtain rfl := Option.some.inj hstep
    exact h

/-! ## What a run does -/

theorem testedImplementation_eq_some {w : World} {r : CheckResult} {i : ℕ} :
    testedImplementation w r = some i ↔
      testDue r.result ((w.rows r.key).bind (·.lastTestResult))
          ((w.rows r.key).bind (·.lastTestAt)) r.now = true ∧
        r.result ≠ .notAssessable ∧ implementationFor w r.key.controlCode = some i := by
  unfold testedImplementation
  dsimp only
  split_ifs with h
  · simp [h]
  · simp only [false_iff]
    tauto

theorem testDue_since {result last : CheckOutcome} {at_ now : ℤ}
    (h : testDue result (some last) (some at_) now = true) :
    last ≠ result ∨ testRepeatDays * msPerDay ≤ now - at_ := by
  unfold testDue at h
  dsimp only at h
  split_ifs at h with h1 h2
  · exact .inl fun heq => h2 (by rw [heq])
  · exact .inr (of_decide_eq_true h)

theorem entryOf_rhythm {w : World} (h : Remembers w) (r : CheckResult) :
    KeepsRhythm (entryOf w r) (w.history r.key) := by
  intro htested
  obtain ⟨i, hi⟩ := Option.isSome_iff_exists.mp htested
  obtain ⟨hdue, hresult, -⟩ := testedImplementation_eq_some.mp hi
  refine ⟨hresult, fun last hlast => ?_⟩
  rw [(h r.key).1, (h r.key).2, hlast] at hdue
  exact testDue_since hdue

theorem raise_eq_true {w : World} {r : CheckResult} {i : ℕ} (h : raise w r i = true) :
    openIdentityNonconformity w i = false ∧ ∃ connectedAt, r.connectedAt = some connectedAt ∧
      nonconformityAfterDays * msPerDay ≤ r.now - connectedAt := by
  unfold raise nonconformityDue at h
  split_ifs at h with hnot
  push Not at hnot
  refine ⟨by simpa using hnot.2, ?_⟩
  have hage := of_decide_eq_true h
  cases hconnected : r.connectedAt with
  | some connectedAt =>
    rw [hconnected] at hage
    exact ⟨connectedAt, rfl, hage⟩
  | none =>
    -- Without a connection the time since is nought.
    rw [hconnected, Option.getD_none, sub_self] at hage
    exact absurd hage (by decide)

theorem entryOf_raises (w : World) (r : CheckResult) : RaisesInTime (entryOf w r) := by
  intro hraised
  obtain ⟨i, hi, hboth⟩ := (Option.any_eq_true _ _).mp hraised
  obtain ⟨hfail, hraise⟩ := Bool.and_eq_true_iff.mp hboth
  obtain ⟨-, -, hfound⟩ := testedImplementation_eq_some.mp hi
  obtain ⟨hopen, hage⟩ := raise_eq_true hraise
  refine ⟨of_decide_eq_true hfail, ?_, hage⟩
  unfold entryOf
  dsimp only
  rw [hfound]
  exact hopen

/-- At the first run after the week a nonconformity is opened exactly where a test is due. -/
theorem entryOf_first {w : World} {r : CheckResult} {connectedAt : ℤ}
    (h : FirstAfterWeek w r connectedAt) : (entryOf w r).raised = true ↔
      testDue r.result ((w.rows r.key).bind (·.lastTestResult))
        ((w.rows r.key).bind (·.lastTestAt)) r.now = true := by
  obtain ⟨i, hfound, hopen⟩ := h.implementation
  have hraise : raise w r i = true := by
    unfold raise nonconformityDue
    rw [h.connected, hopen, Option.getD_some, if_neg (by simp [h.result])]
    exact decide_eq_true h.after
  constructor
  · intro hraised
    obtain ⟨j, hj, -⟩ := (Option.any_eq_true _ _).mp hraised
    exact (testedImplementation_eq_some.mp hj).1
  · intro hdue
    apply (Option.any_eq_true _ _).mpr
    exact ⟨i, testedImplementation_eq_some.mpr ⟨hdue, by simp [h.result], hfound⟩,
      by simp [h.result, hraise]⟩

theorem writeCheckResult_inTime {w : World} (h : Remembers w) (r : CheckResult)
    (hfirst : ∀ connectedAt, FirstAfterWeek w r connectedAt → (entryOf w r).raised = true) :
    InTime w r (writeCheckResult w r) (entryOf w r) where
  entry := ⟨rfl, rfl, rfl⟩
  history := rfl
  tests := by
    unfold writeCheckResult entryOf
    dsimp only
    cases testedImplementation w r with
    | none => rfl
    | some i => exact ⟨i, rfl⟩
  nonconformities := by
    unfold writeCheckResult entryOf
    dsimp only
    cases testedImplementation w r with
    | none => rfl
    | some i => simp [insertControlTest]
  rhythm := entryOf_rhythm h r
  raises := entryOf_raises w r
  first := hfirst

/-- An entry is found again in the history. -/
theorem entry_unique {w : World} {r : CheckResult} {e : Entry}
    (h : InTime w r (writeCheckResult w r) e) : e = entryOf w r := by
  have hhistory := congrFun h.history r.key
  rw [Function.update_self] at hhistory
  have hwritten : (writeCheckResult w r).history r.key = entryOf w r :: w.history r.key := by
    unfold writeCheckResult
    exact Function.update_self ..
  rw [hwritten] at hhistory
  exact (List.cons.inj hhistory).1.symm

theorem step_check {w w' : World} {r : CheckResult} :
    step w (.check r) = some w' ↔ w.clock ≤ r.now ∧ w' = writeCheckResult w r := by
  unfold step
  dsimp only
  split_ifs with h
  · simp [h, eq_comm]
  · simp [h]

/-- A run is in time exactly where a test is due at the first run after the week. -/
theorem actsInTime_iff {w : World} (h : Remembers w) (a : Act) :
    TestDueAfterWeek w a ↔ ActsInTime w a := by
  cases a with
  | others implementations tests nonconformities => exact Iff.rfl
  | check r =>
    constructor
    · intro hdue w' hstep
      obtain ⟨hclock, rfl⟩ := step_check.mp hstep
      exact ⟨entryOf w r, writeCheckResult_inTime h r fun connectedAt hfirst =>
        (entryOf_first hfirst).mpr (hdue connectedAt hclock hfirst)⟩
    · intro hacts connectedAt hclock hfirst
      obtain ⟨e, he⟩ := hacts _ (step_check.mpr ⟨hclock, rfl⟩)
      obtain rfl := entry_unique he
      exact (entryOf_first hfirst).mp (he.first connectedAt hfirst)

/-- **The checks act in time over a run exactly where, at the first run after the week, the
rhythm of the tests wants one.** -/
theorem checks_act_in_time_iff (implementations : List Implementation) (tests : List ControlTest)
    (nonconformities : List Nonconformity) (clock : ℤ) (acts : List Act) :
    Along step ActsInTime (World.start implementations tests nonconformities clock) acts ↔
      Along step TestDueAfterWeek (World.start implementations tests nonconformities clock) acts := by
  have hstart := start_remembers implementations tests nonconformities clock
  have hkeeps : ∀ w a w', Remembers w → step w a = some w' → Remembers w' :=
    fun _ _ _ h hstep => step_remembers h hstep
  constructor
  · exact along_imp hkeeps (fun w a h => (actsInTime_iff h a).mpr) hstart
  · exact along_imp hkeeps (fun w a h => (actsInTime_iff h a).mp) hstart

/-- All checks fail at the connection and a week later: the second run records no test and
opens nothing. -/
theorem failing_for_a_week :
    ¬ Along step ActsInTime (World.start [⟨1, js "CC-IAM-03"⟩] [] [] 0)
      (evaluateIdentityChecks 0 (some 0) (fun _ => .fail) (fun _ => 1) ++
        evaluateIdentityChecks (7 * msPerDay) (some 0) (fun _ => .fail) (fun _ => 2)) := by
  intro h
  obtain ⟨e, he⟩ := ((((h.2 _ rfl).2 _ rfl).2 _ rfl).2 _ rfl).1 _ rfl
  have hraised := he.first 0 ⟨rfl, ⟨1, by decide, by decide⟩, rfl, by decide, by decide⟩
  have hopened := he.nonconformities
  rw [hraised] at hopened
  exact absurd (congrArg List.length hopened) (by decide)

end Klick.Identity
