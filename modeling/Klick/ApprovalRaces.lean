-- Decisions on one request at the same time: each call of `decide` is a
-- transaction of single statements, between which others commit.
import Klick.ApprovalRuns

open Js

namespace Klick

/-! ## Transactions -/

/-- How far a transaction has come, with what it has read and written. -/
inductive Stage
  | begun
  | read (req : ApprovalRequest)
  | inserted (req : ApprovalRequest) (before : List DecisionRow) (row : DecisionRow)
  | counted (req : ApprovalRequest) (before : List DecisionRow) (row : DecisionRow)
      (decisionsOnStep : List DecisionRow)
  | updated (req : ApprovalRequest) (before : List DecisionRow) (row : DecisionRow)
      (written : ApprovalRequest)
  | ended (answer : Option DecideError)

/-- What is committed, and the transactions of the calls. -/
structure Races (ι : Type) where
  db : RequestState
  stage : ι → Stage
  /-- Who has updated the row of the request and not committed yet. -/
  holder : Option ι
  /-- The calls that have come to their end, in order. -/
  ended : List ι

namespace Races

variable {ι : Type} [DecidableEq ι]

def begin (st : RequestState) : Races ι := ⟨st, fun _ => .begun, none, []⟩

def goTo (w : Races ι) (i : ι) (s : Stage) : Races ι :=
  { w with stage := Function.update w.stage i s }

def finish (w : Races ι) (i : ι) (answer : Option DecideError) : Races ι :=
  { w with
    stage := Function.update w.stage i (.ended answer)
    ended := w.ended ++ [i] }

/-- The next statement of a call. Reads see what is committed at their time and the own insert.
The update waits until nobody else holds the row, and applies to the row as it is then. -/
def turn (calls : ι → DecideCall) (w : Races ι) (i : ι) : Races ι :=
  match w.stage i with
  | .begun =>
    if w.db.request.status ≠ .pending then w.finish i (some .notPending)
    else w.goTo i (.read w.db.request)
  | .read req =>
    let before := onStep w.db.decisions req.currentStep
    match decideCheck (calls i).env (calls i).input req before with
    | .error e => w.finish i (some e)
    | .ok row => w.goTo i (.inserted req before row)
  | .inserted req before row =>
    w.goTo i (.counted req before row (onStep w.db.decisions req.currentStep ++ [row]))
  | .counted req before row decisionsOnStep =>
    if w.holder.isSome then w
    else
      { w.goTo i (.updated req before row
          (decideWrite (calls i).env req decisionsOnStep w.db.request)) with holder := some i }
  | .updated _ _ row written =>
    { w.finish i none with
      db := ⟨written, w.db.decisions ++ [row]⟩
      holder := none }
  | .ended _ => w

def run (calls : ι → DecideCall) (w : Races ι) (schedule : List ι) : Races ι :=
  schedule.foldl (turn calls) w

/-- A call that comes to its end now has read what still holds: the row of the request and the
decisions on its step. -/
def Fresh (calls : ι → DecideCall) (w : Races ι) (i : ι) : Prop :=
  match w.stage i with
  | .read req =>
    (∃ e, decideCheck (calls i).env (calls i).input req
      (onStep w.db.decisions req.currentStep) = .error e) → w.db.request = req
  | .updated req before _ _ =>
    w.db.request = req ∧ onStep w.db.decisions req.currentStep = before
  | _ => True

/-- Every call of the run ends so. -/
def FreshRun (calls : ι → DecideCall) (w : Races ι) : List ι → Prop
  | [] => True
  | i :: is => w.Fresh calls i ∧ FreshRun calls (w.turn calls i) is

end Races

/-- The answer of a call. -/
def answerOf : Except DecideError RequestState → Option DecideError
  | .ok _ => none
  | .error e => some e

/-! ## The invariant -/

namespace Races

variable {ι : Type} [DecidableEq ι] {calls : ι → DecideCall} {w : Races ι} {i : ι}

/-- What an open transaction knows. -/
def Knows (c : DecideCall) (db : RequestState) (holds : Prop) : Stage → Prop
  | .begun => True
  | .read _ => True
  | .inserted req before row =>
    decideCheck c.env c.input req before = .ok row ∧ before <+: onStep db.decisions req.currentStep
  | .counted req before row ds =>
    decideCheck c.env c.input req before = .ok row ∧ ∃ seen, ds = seen ++ [row] ∧ before <+: seen ∧
      seen <+: onStep db.decisions req.currentStep
  | .updated req before row written =>
    decideCheck c.env c.input req before = .ok row ∧ holds ∧ ∃ seen, before <+: seen ∧
      seen <+: onStep db.decisions req.currentStep ∧
      written = decideWrite c.env req (seen ++ [row]) db.request
  | .ended _ => True

structure Inv (calls : ι → DecideCall) (st₀ : RequestState) (w : Races ι) : Prop where
  knows : ∀ i, Knows (calls i) w.db (w.holder = some i) (w.stage i)
  serial : w.db = st₀.calls (w.ended.map calls)
  nodup : w.ended.Nodup
  mem_ended : ∀ i, i ∈ w.ended ↔ ∃ a, w.stage i = .ended a
  answers : ∀ pre i post, w.ended = pre ++ i :: post →
    w.stage i = .ended (answerOf ((st₀.calls (pre.map calls)).decide (calls i).env (calls i).input))

variable {st₀ : RequestState}

omit [DecidableEq ι] in
theorem Inv.begin : Inv calls st₀ (begin st₀) where
  knows := fun _ => trivial
  serial := rfl
  nodup := List.nodup_nil
  mem_ended := by
    intro i
    simp [Races.begin]
  answers := by
    intro pre i post h
    cases pre <;> cases h

/-- A statement that commits nothing. -/
theorem Inv.goTo (h : Inv calls st₀ w) (hopen : ∀ a, w.stage i ≠ .ended a) (s : Stage)
    (hs : ∀ a, s ≠ .ended a) (holder : Option ι)
    (hknows : Knows (calls i) w.db (holder = some i) s)
    (hothers : ∀ j, j ≠ i → Knows (calls j) w.db (holder = some j) (w.stage j)) :
    Inv calls st₀ { w.goTo i s with holder := holder } where
  knows := by
    intro j
    by_cases hj : j = i
    · subst hj
      simpa [Races.goTo] using hknows
    · simpa [Races.goTo, hj] using hothers j hj
  serial := h.serial
  nodup := h.nodup
  mem_ended := by
    intro j
    by_cases hj : j = i
    · subst hj
      simpa [Races.goTo, hs, hopen] using h.mem_ended j
    · simpa [Races.goTo, hj] using h.mem_ended j
  answers := by
    intro pre j post he
    have hj : j ≠ i := by
      rintro rfl
      obtain ⟨a, ha⟩ := (h.mem_ended j).mp (by
        change w.ended = _ at he
        simp [he])
      exact hopen a ha
    simpa [Races.goTo, hj] using h.answers pre j post he

/-- A call that ends with what `decide` would answer now, and leaves what it would leave. -/
theorem Inv.finish (h : Inv calls st₀ w) (hopen : ∀ a, w.stage i ≠ .ended a) (db : RequestState)
    (holder : Option ι) (hdb : w.db.call (calls i) = db)
    (hknows : ∀ j, j ≠ i → Knows (calls j) db (holder = some j) (w.stage j)) :
    Inv calls st₀ { w.finish i (answerOf (w.db.decide (calls i).env (calls i).input)) with
      db := db, holder := holder } := by
  have hnot : i ∉ w.ended := by
    intro hi
    obtain ⟨a, ha⟩ := (h.mem_ended i).mp hi
    exact hopen a ha
  refine ⟨?_, ?_, ?_, ?_, ?_⟩
  · intro j
    by_cases hj : j = i
    · subst hj
      simp [Races.finish, Knows]
    · simpa [Races.finish, hj] using hknows j hj
  · change db = st₀.calls ((w.ended ++ [i]).map calls)
    rw [List.map_append, ← hdb, h.serial]
    exact (calls_append (w.ended.map calls) [calls i]).symm
  · change (w.ended ++ [i]).Nodup
    rw [List.nodup_append]
    refine ⟨h.nodup, List.nodup_singleton i, ?_⟩
    rintro a ha b hb rfl
    exact hnot (List.mem_singleton.mp hb ▸ ha)
  · intro j
    by_cases hj : j = i
    · subst hj
      simp [Races.finish]
    · simpa [Races.finish, hj] using h.mem_ended j
  · intro pre j post he
    change w.ended ++ [i] = pre ++ j :: post at he
    rcases List.eq_nil_or_concat post with rfl | ⟨post', k, rfl⟩
    · obtain ⟨hpre, hji⟩ := List.append_inj' he rfl
      cases hji
      subst hpre
      simp [Races.finish, ← h.serial]
    · have he' : w.ended ++ [i] = (pre ++ j :: post') ++ [k] := by simpa using he
      obtain ⟨hpre, -⟩ := List.append_inj' he' rfl
      have hj : j ≠ i := by
        rintro rfl
        exact hnot (by simp [hpre])
      simpa [Races.finish, hj] using h.answers pre j post' hpre

theorem decide_of_error {st : RequestState} {env : DecideEnv} {input : DecideInput} {e : DecideError}
    (h : decideCheck env input st.request (onStep st.decisions st.request.currentStep) = .error e) :
    st.decide env input = .error e := by
  unfold RequestState.decide
  rw [h]

/-- A refused call. -/
theorem Inv.refuse (h : Inv calls st₀ w) (hopen : ∀ a, w.stage i ≠ .ended a) {e : DecideError}
    (he : decideCheck (calls i).env (calls i).input w.db.request
      (onStep w.db.decisions w.db.request.currentStep) = .error e) :
    Inv calls st₀ (w.finish i (some e)) := by
  have hdecide := decide_of_error he
  have := h.finish hopen w.db w.holder (call_of_error hdecide) fun j _ => h.knows j
  rwa [hdecide] at this

/-- Where somebody else commits, an open transaction knows what it knew. -/
theorem Knows.commit {c : DecideCall} {db : RequestState} {s : Stage} (h : Knows c db False s)
    (request : ApprovalRequest) (row : DecisionRow) (holds : Prop) :
    Knows c ⟨request, db.decisions ++ [row]⟩ holds s := by
  have hgrow : ∀ order, onStep db.decisions order <+: onStep (db.decisions ++ [row]) order := by
    intro order
    exact (List.prefix_append _ _).filter _
  cases s with
  | begun => trivial
  | read req => trivial
  | inserted req before row' => exact ⟨h.1, h.2.trans (hgrow _)⟩
  | counted req before row' ds =>
    obtain ⟨h1, seen, h2, h3, h4⟩ := h
    exact ⟨h1, seen, h2, h3, h4.trans (hgrow _)⟩
  | updated req before row' written => exact h.2.1.elim
  | ended a => trivial

/-- One statement of a run in which calls end fresh. -/
theorem Inv.turn (h : Inv calls st₀ w) (hfresh : w.Fresh calls i) :
    Inv calls st₀ (w.turn calls i) := by
  have hknows := h.knows i
  unfold Races.Fresh at hfresh
  unfold Races.turn
  cases hs : w.stage i with
  | begun =>
    have hopen : ∀ a, w.stage i ≠ .ended a := by rw [hs]; nofun
    dsimp only
    split
    · rename_i hst
      refine h.refuse hopen (e := .notPending) ?_
      unfold decideCheck
      rw [if_pos hst]
    · exact h.goTo hopen (.read w.db.request) nofun w.holder trivial fun j _ => h.knows j
  | read req =>
    have hopen : ∀ a, w.stage i ≠ .ended a := by rw [hs]; nofun
    rw [hs] at hfresh
    dsimp only
    split
    · rename_i e he
      have hreq : w.db.request = req := hfresh ⟨e, he⟩
      exact h.refuse hopen (by rw [hreq]; exact he)
    · rename_i row hrow
      exact h.goTo hopen (.inserted req _ row) nofun w.holder ⟨hrow, List.prefix_rfl⟩
        fun j _ => h.knows j
  | inserted req before row =>
    have hopen : ∀ a, w.stage i ≠ .ended a := by rw [hs]; nofun
    rw [hs] at hknows
    exact h.goTo hopen (.counted req before row _) nofun w.holder
      ⟨hknows.1, _, rfl, hknows.2, List.prefix_rfl⟩ fun j _ => h.knows j
  | counted req before row ds =>
    have hopen : ∀ a, w.stage i ≠ .ended a := by rw [hs]; nofun
    rw [hs] at hknows
    dsimp only
    split
    · exact h
    · rename_i hfree
      have hnone : w.holder = none := by simpa using hfree
      obtain ⟨hcheck, seen, rfl, h1, h2⟩ := hknows
      refine h.goTo hopen (.updated req before row _) nofun (some i)
        ⟨hcheck, rfl, seen, h1, h2, rfl⟩ fun j hj => ?_
      have hk := h.knows j
      have h3 : (w.holder = some j) = (some i = some j) := by simp [hnone, Ne.symm hj]
      rwa [h3] at hk
  | updated req before row written =>
    have hopen : ∀ a, w.stage i ≠ .ended a := by rw [hs]; nofun
    rw [hs] at hfresh hknows
    obtain ⟨hreq, hbefore⟩ := hfresh
    obtain ⟨hcheck, hholds, seen, h1, h2, hwritten⟩ := hknows
    have hseen : seen = before := by
      rw [hbefore] at h2
      exact h2.eq_of_length (le_antisymm h2.length_le h1.length_le)
    have hrowstep : row.step = w.db.request.currentStep := by
      obtain ⟨a⟩ := decideCheck_eq_ok.mp hcheck
      rw [hreq]
      exact congrArg DecisionRow.step a.row_eq
    subst hreq
    have hdecide : w.db.decide (calls i).env (calls i).input =
        .ok ⟨written, w.db.decisions ++ [row]⟩ := by
      refine decide_eq_ok.mpr ⟨row, decideCheck_eq_ok.mp (by rw [hbefore]; exact hcheck), ?_⟩
      rw [onStep_append_of_eq hrowstep, hbefore, hwritten, hseen]
    have := h.finish hopen ⟨written, w.db.decisions ++ [row]⟩ none (call_of_decide hdecide) ?_
    · rwa [hdecide] at this
    · intro j hj
      have hk := h.knows j
      rw [hholds, Option.some.injEq] at hk
      exact Knows.commit (by rwa [eq_false (Ne.symm hj)] at hk) _ _ _
  | ended a => exact h

theorem Inv.run (schedule : List ι) (h : Inv calls st₀ w) (hfresh : w.FreshRun calls schedule) :
    Inv calls st₀ (w.run calls schedule) := by
  induction schedule generalizing w with
  | nil => exact h
  | cons i is ih => exact ih (h.turn hfresh.1) hfresh.2

end Races

/-! ## One call after the other -/

/-- What one call after the other leaves: an open request waits for its step. -/
structure Waiting (steps : List ApprovalStep) (st : RequestState) : Prop where
  snapshot : st.request.steps = some steps
  nonempty : steps ≠ []
  upTo : ∀ d ∈ st.decisions, d.step ≤ st.request.currentStep
  waits : st.request.status = .pending → ∀ step,
    steps.find? (fun s => s.order = st.request.currentStep) = some step →
      onStep st.decisions st.request.currentStep = [] ∨
        stepSatisfied step (onStep st.decisions st.request.currentStep) = false

variable {steps : List ApprovalStep} {requester : Option Text} {st : RequestState}

theorem Waiting.open {dueAt : Option ℤ} (h : openRequest steps requester dueAt = some st) :
    Waiting steps st := by
  unfold openRequest at h
  obtain ⟨first, hfirst, rfl⟩ := Option.map_eq_some_iff.mp h
  obtain ⟨⟨s, hs, -⟩, -⟩ := nextActiveStep_eq_some.mp hfirst
  exact ⟨rfl, List.ne_nil_of_mem hs, fun d hd => absurd hd List.not_mem_nil,
    fun _ _ _ => Or.inl rfl⟩

theorem Waiting.call (h : Waiting steps st) (c : DecideCall) : Waiting steps (st.call c) := by
  unfold RequestState.call
  split
  · rename_i st' hst
    obtain ⟨row, ⟨a⟩, rfl⟩ := decide_eq_ok.mp hst
    have hrowstep : row.step = st.request.currentStep := congrArg DecisionRow.step a.row_eq
    have hsteps : ∀ ws, requestSteps st.request ws = steps := fun ws =>
      requestSteps_snapshot h.snapshot h.nonempty
    have hcur := a.current
    rw [hsteps] at hcur
    obtain ⟨-, hsnap⟩ := decideWrite_frame c.env st.request
      (onStep (st.decisions ++ [row]) st.request.currentStep) st.request
    have hcases := decideWrite_cases c.env st.request
      (onStep (st.decisions ++ [row]) st.request.currentStep) st.request (hsteps _)
    have hup : ∀ d ∈ st.decisions ++ [row], d.step ≤ st.request.currentStep := by
      intro d hd
      rcases List.mem_append.mp hd with hd | hd
      · exact h.upTo d hd
      · rw [List.mem_singleton.mp hd, hrowstep]
    rcases hcases with ⟨-, hs, hc⟩ | ⟨-, hs, hc⟩ | ⟨-, hs, hc⟩ | ⟨next, hadv, hs, hc⟩
    · exact ⟨hsnap.trans h.snapshot, h.nonempty, by simpa only [hc] using hup,
        fun hp => by rw [hs] at hp; cases hp⟩
    · exact ⟨hsnap.trans h.snapshot, h.nonempty, by simpa only [hc] using hup,
        fun hp => by rw [hs] at hp; cases hp⟩
    · exact ⟨hsnap.trans h.snapshot, h.nonempty, by simpa only [hc] using hup,
        fun hp => by rw [hs] at hp; cases hp⟩
    · rcases advance_moves hcur hadv (Or.inr ⟨next, rfl⟩) with ⟨hsame, hshort⟩ | ⟨-, hmove⟩
      · rw [RequestOutcome.pending.injEq] at hsame
        subst hsame
        refine ⟨hsnap.trans h.snapshot, h.nonempty, by simpa only [hc] using hup, ?_⟩
        intro _ step hstep
        simp only [hc] at hstep ⊢
        rw [hcur, Option.some.injEq] at hstep
        exact Or.inr (hstep ▸ hshort)
      · rcases hmove with ⟨hout, -⟩ | ⟨next', hout, hnext⟩
        · cases hout
        · rw [RequestOutcome.pending.injEq] at hout
          subst hout
          have hlt : st.request.currentStep < next := by
            obtain ⟨⟨s, -, -, hlt, ho⟩, -⟩ := nextActiveStep_eq_some.mp hnext
            exact ho ▸ hlt _ rfl
          refine ⟨hsnap.trans h.snapshot, h.nonempty, ?_, ?_⟩
          · simp only [hc]
            exact fun d hd => (hup d hd).trans hlt.le
          · intro _ step _
            simp only [hc]
            refine Or.inl (List.filter_eq_nil_iff.mpr fun d hd => ?_)
            have := hup d hd
            simp only [decide_eq_true_eq]
            omega
  · exact h

theorem Waiting.calls (h : Waiting steps st) (cs : List DecideCall) :
    Waiting steps (st.calls cs) := by
  induction cs generalizing st with
  | nil => exact h
  | cons c cs ih => exact ih (h.call c)

theorem decisions_grow (cs : List DecideCall) : st.decisions <+: (st.calls cs).decisions := by
  induction cs generalizing st with
  | nil => exact List.prefix_rfl
  | cons c cs ih =>
    have hcall : st.decisions <+: (st.call c).decisions := by
      unfold RequestState.call
      split
      · rename_i st' hst
        obtain ⟨row, -, rfl⟩ := decide_eq_ok.mp hst
        exact List.prefix_append _ _
      · exact List.prefix_rfl
    exact hcall.trans ih

/-! ## Serial where the reads are fresh -/

/-- A step that needs two of its members. -/
def pairStep : ApprovalStep := { plainStep 1 (js "role:editor") with minApprovers := some 2 }

/-- Two members approve; `r` asks. -/
def pairCall (first : Bool) : DecideCall where
  env :=
    { workflowSteps := some [pairStep]
      candidates := [plainMember (js "a"), plainMember (js "b"), plainMember (js "r")]
      delegations := []
      entityOwnerUserId := none
      now := 0 }
  input := ⟨if first then js "a" else js "b", .approved, false⟩

end Klick
