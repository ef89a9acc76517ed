-- When an open request can always still be approved: each step is a hall in
-- which the approving persons take the seats of the rules.
import Klick.ApprovalRoutes
import Klick.ApprovalRuns
import Klick.Seats

open Js

namespace Klick

/-! ## A step as a hall -/

/-- What `approverEligibility` says of a person. -/
def eligibility (env : DecideEnv) (requester : Option Text) (step : ApprovalStep) (person : Text) :
    Option Eligible :=
  (env.candidates.find? fun c => c.userId = person).bind fun me =>
    (approverEligibility step me ⟨requester, env.entityOwnerUserId, none, env.delegations⟩
      env.candidates).toOption

/-- The seats of a step: those of each rule in the mode `all`, otherwise those of one row in
which all rules are one. -/
def hall (env : DecideEnv) (requester : Option Text) (step : ApprovalStep) : Hall Text Text where
  rows := if step.mode = some .all then stepRules step else [[]]
  seats := if step.mode = some .all then (requiredOf step).toNat
    else max 1 (requiredOf step).toNat
  people := distinct (env.candidates.map (·.userId))
  people_nodup := distinct_nodup _
  meets := fun p r =>
    match eligibility env requester step p with
    | none => false
    | some e => step.mode ≠ some .all || e.rules.contains r
  meets_people := by
    intro p r h
    unfold eligibility at h
    cases hf : env.candidates.find? fun c => c.userId = p with
    | none => simp [hf] at h
    | some me =>
      rw [mem_distinct, List.mem_map]
      exact ⟨me, List.mem_of_find?_eq_some hf, of_decide_eq_true (List.find?_some hf :)⟩

/-- A step that no order of approvals blocks. -/
def Passable (env : DecideEnv) (requester : Option Text) (step : ApprovalStep) : Prop :=
  (step.mode = some .all → 1 ≤ requiredOf step) ∧ (hall env requester step).Robust

/-- The steps at which a request stands in turn. -/
def stops (steps : List ApprovalStep) : List ApprovalStep :=
  (steps.filter (·.skipped.isNone)).filterMap fun s => steps.find? fun t => t.order = s.order

/-- The seats that the decisions on a step take. -/
def seatsOf (step : ApprovalStep) (ds : List DecisionRow) : List (Text × Text) :=
  ds.map fun d =>
    (d.approverUserId.getD [], if step.mode = some .all then d.rule.getD [] else [])

/-- A person approves, with signature. -/
def approval (person : Text) : DecideInput := ⟨person, .approved, true⟩

/-- A call among the same members, at some time. -/
def DecideEnv.call (env : DecideEnv) (x : ℤ × DecideInput) : DecideCall :=
  ⟨{ env with now := x.1 }, x.2⟩

/-- Whatever was decided, while the request is open some member's approval is accepted, and
further calls lead to approval. -/
def CanComplete (env : DecideEnv) (st : RequestState) : Prop :=
  ∀ xs : List (ℤ × DecideInput), (st.calls (xs.map env.call)).request.status = .pending →
    (∃ me ∈ env.candidates, ∀ now, ∃ st', (st.calls (xs.map env.call)).decide
      { env with now := now } (approval me.userId) = .ok st') ∧
    ∃ ys : List (ℤ × DecideInput), ((st.calls (xs.map env.call)).calls (ys.map env.call)).request.status = .approved

variable {env : DecideEnv} {requester : Option Text} {steps : List ApprovalStep}
  {step : ApprovalStep} {ds : List DecisionRow} {p r : Text}

/-! ## Seats and rules -/

/-- The rules of an eligible person are rules of the step, in their order. -/
theorem eligible_rules {me : ApproverCandidate} {ctx : EligibilityContext}
    {members : List ApproverCandidate} {e : Eligible}
    (h : approverEligibility step me ctx members = .ok e) :
    (stepRules step).filter e.rules.contains = e.rules := by
  have hfilter : ∀ a : Text → Bool, (stepRules step).filter ((stepRules step).filter a).contains =
      (stepRules step).filter a := by
    intro a
    refine List.filter_congr fun x hx => ?_
    by_cases ha : a x = true <;> simp [hx, ha]
  have hprincipal : ∀ from', (stepRules step).filter
      (principalRules (stepRules step) from' ctx members).contains =
        principalRules (stepRules step) from' ctx members := by
    intro from'
    unfold principalRules
    split
    · simp
    · exact hfilter _
  have hdel : ∀ (dels : List Delegation) (e : Eligible),
      delegatedRules (stepRules step) me ctx members dels = some e →
        (stepRules step).filter e.rules.contains = e.rules := by
    intro dels e h
    induction dels with
    | nil => cases h
    | cons d dels ih =>
      unfold delegatedRules at h
      split at h
      · exact ih h
      · dsimp only at h
        split at h
        · cases h
          exact hprincipal _
        · exact ih h
  unfold approverEligibility at h
  split at h
  · cases h
  · split at h
    · cases h
    · dsimp only at h
      split at h
      · cases h
        exact hfilter _
      · split at h
        · rename_i e' he'
          cases h
          exact hdel _ _ he'
        · cases h

/-- Decisions that approve, each by a person for a rule. -/
def Approving (ds : List DecisionRow) : Prop :=
  ∀ d ∈ ds, d.decision = .approved ∧ d.approverUserId.isSome ∧ d.rule.isSome

theorem taken_all (hds : Approving ds) (hall : step.mode = some .all) :
    Hall.taken (seatsOf step ds) r =
      (ds.filter fun d => d.decision = .approved && d.rule = some r).length := by
  unfold Hall.taken seatsOf
  rw [List.countP_map, ← List.countP_eq_length_filter]
  refine List.countP_congr fun d hd => ?_
  obtain ⟨h1, -, h3⟩ := hds d hd
  obtain ⟨q, hq⟩ := Option.isSome_iff_exists.mp h3
  simp [h1, hq, hall]

theorem taken_any (hall : step.mode ≠ some .all) :
    Hall.taken (seatsOf step ds) [] = ds.length := by
  unfold Hall.taken seatsOf
  rw [List.countP_map, List.countP_eq_length]
  simp [hall]

theorem distinctApprovers_eq (hds : Approving ds)
    (hnd : (ds.map fun d => d.approverUserId.getD []).Nodup) : distinctApprovers ds = ds.length := by
  have hnames : (ds.zipIdx.map fun d => d.1.approverUserId.getD (ch '#' :: decimal d.2)) =
      ds.map fun d => d.approverUserId.getD [] := by
    conv_rhs => rw [← List.zipIdx_map_fst 0 ds, List.map_map]
    refine List.map_congr_left fun d hd => ?_
    have hmem : d.1 ∈ ds := by
      have := List.mem_zipIdx hd
      rw [this.2.2]
      exact List.getElem_mem _
    obtain ⟨u, hu⟩ := Option.isSome_iff_exists.mp (hds d.1 hmem).2.1
    simp [hu]
  unfold distinctApprovers
  rw [hnames]
  have hperm : (distinct (ds.map fun d => d.approverUserId.getD [])).Perm
      (ds.map fun d => d.approverUserId.getD []) :=
    (List.perm_ext_iff_of_nodup (distinct_nodup _) hnd).mpr fun a => mem_distinct
  rw [hperm.length_eq, List.length_map]

theorem Approving.filter (hds : Approving ds) (a : DecisionRow → Bool) : Approving (ds.filter a) :=
  fun d hd => hds d (List.mem_of_mem_filter hd)

theorem seatsOf_persons : (seatsOf step ds).map Prod.fst = ds.map fun d => d.approverUserId.getD [] := by
  simp [seatsOf]

/-- A step is satisfied when its seats are taken. -/
theorem stepSatisfied_iff (hds : Approving ds)
    (hseated : (hall env requester step).Seated (seatsOf step ds)) :
    stepSatisfied step ds = true ↔
      ∀ r ∈ (hall env requester step).rows, requiredOf step ≤ Hall.taken (seatsOf step ds) r := by
  have happroved : (ds.filter fun d => d.decision = .approved) = ds :=
    List.filter_eq_self.mpr fun d hd => by simpa using (hds d hd).1
  have hnd := hseated.once
  rw [seatsOf_persons] at hnd
  have hcount : ∀ r, step.mode = some .all →
      distinctApprovers (ds.filter fun d => d.rule = some r) = Hall.taken (seatsOf step ds) r := by
    intro r hall
    rw [distinctApprovers_eq (hds.filter _) (hnd.sublist (List.filter_sublist.map _)),
      taken_all hds hall]
    congr 1
    refine List.filter_congr fun d hd => ?_
    simp [(hds d hd).1]
  unfold stepSatisfied
  dsimp only
  rw [happroved]
  by_cases hmode : step.mode = some .all
  · have hrows : (hall env requester step).rows = stepRules step := if_pos hmode
    rw [hrows]
    by_cases hlen : 1 < (stepRules step).length
    · rw [if_pos (by simp [hmode, hlen]), List.all_eq_true]
      simp only [hcount _ hmode, decide_eq_true_eq]
    · -- one rule, for which all decisions count
      rw [if_neg (by simp [hlen]), distinctApprovers_eq hds hnd, decide_eq_true_eq]
      obtain ⟨r, hr⟩ : ∃ r, stepRules step = [r] := by
        unfold stepRules at hlen ⊢
        split at hlen
        · rename_i q qs hq
          cases qs with
          | nil => exact ⟨q, by simp⟩
          | cons _ _ => simp at hlen
        · exact ⟨_, rfl⟩
      have hfull : Hall.taken (seatsOf step ds) r = ds.length := by
        unfold Hall.taken
        rw [List.countP_eq_length.mpr, seatsOf, List.length_map]
        intro x hx
        have := (hseated.order x hx).1
        rw [hrows, hr] at this
        simpa using this
      rw [hr]
      simp [hfull]
  · have hrows : (hall env requester step).rows = [[]] := if_neg hmode
    rw [hrows, if_neg (by simp [hmode]), distinctApprovers_eq hds hnd]
    simp [taken_any hmode]

/-! ## Who is accepted -/

theorem choices_all {e : Eligible} (hmode : step.mode = some .all)
    (he : eligibility env requester step p = some e) :
    (hall env requester step).choices p = e.rules := by
  have hrules : (stepRules step).filter e.rules.contains = e.rules := by
    unfold eligibility at he
    obtain ⟨me, -, hme⟩ := Option.bind_eq_some_iff.mp he
    cases helig : approverEligibility step me
        ⟨requester, env.entityOwnerUserId, none, env.delegations⟩ env.candidates with
    | error x => rw [helig] at hme; cases hme
    | ok e' =>
      rw [helig] at hme
      cases hme
      exact eligible_rules helig
  conv_rhs => rw [← hrules]
  unfold Hall.choices hall
  rw [if_pos hmode]
  refine List.filter_congr fun r _ => ?_
  simp [he, hmode]

/-- In the mode `all` a person takes a seat of her first open rule. -/
theorem pick_all {e : Eligible} (hds : Approving ds) (hmode : step.mode = some .all)
    (he : eligibility env requester step p = some e) :
    (hall env requester step).pick (seatsOf step ds) p =
      e.rules.find? (openRules step ds).contains := by
  unfold Hall.pick
  rw [choices_all hmode he]
  refine List.find?_congr fun r hr => ?_
  have hrule : r ∈ stepRules step := by
    rw [← choices_all hmode he] at hr
    have := List.mem_of_mem_filter hr
    unfold hall at this
    rwa [if_pos hmode] at this
  have hseats : (hall env requester step).seats = (requiredOf step).toNat := if_pos hmode
  have hmem : r ∈ openRules step ds ↔
      ((ds.filter fun d => d.decision = .approved && d.rule = some r).length : ℤ) <
        requiredOf step := by
    simp [openRules, hmode, hrule]
  rw [hseats, taken_all hds hmode, Bool.eq_iff_iff, decide_eq_true_eq, List.contains_iff_mem, hmem]
  omega

/-- Otherwise she takes one seat of the one row. -/
theorem pick_any {e : Eligible} (hmode : step.mode ≠ some .all)
    (he : eligibility env requester step p = some e)
    (hfree : Hall.taken (seatsOf step ds) [] < (hall env requester step).seats) :
    (hall env requester step).pick (seatsOf step ds) p = some [] := by
  have hrows : (hall env requester step).rows = [[]] := if_neg hmode
  have hmeets : (hall env requester step).meets p [] = true := by
    unfold hall
    simp [he, hmode]
  unfold Hall.pick Hall.choices
  rw [hrows]
  simp [hmeets, hfree]

theorem eligibility_of_pick (h : (hall env requester step).pick (seatsOf step ds) p = some r) :
    ∃ e, eligibility env requester step p = some e := by
  have hmeets := (Hall.pick_eq_some.mp h).2.1
  unfold hall at hmeets
  cases he : eligibility env requester step p with
  | none => simp [he] at hmeets
  | some e => exact ⟨e, rfl⟩

/-! ## Where a request stands -/

/-- An open request stands at a step, with these seats taken. -/
structure Stands (env : DecideEnv) (requester : Option Text) (steps : List ApprovalStep)
    (step : ApprovalStep) (f : List (Text × Text)) (st : RequestState) : Prop where
  snapshot : st.request.steps = some steps
  requester_eq : st.request.requestedByUserId = requester
  pending : st.request.status = .pending
  current : steps.find? (fun s => s.order = st.request.currentStep) = some step
  upTo : ∀ d ∈ st.decisions, d.step ≤ st.request.currentStep
  approving : Approving (onStep st.decisions st.request.currentStep)
  seats : seatsOf step (onStep st.decisions st.request.currentStep) = f
  reached : (hall env requester step).Reached f
  waits : f = [] ∨ ∃ r ∈ (hall env requester step).rows, (Hall.taken f r : ℤ) < requiredOf step

/-- What an accepted call makes of it. -/
inductive Moves (env : DecideEnv) (requester : Option Text) (steps : List ApprovalStep)
    (step : ApprovalStep) (f : List (Text × Text)) (kind : DecisionKind) (st' : RequestState) : Prop
  | ends (against : kind ≠ .approved) (h : st'.request.status = .rejected ∨ st'.request.status = .changesRequested)
  | stays (h : Stands env requester steps step f st')
  | approves (h : st'.request.status = .approved)
      (full : ∀ r ∈ (hall env requester step).rows, requiredOf step ≤ Hall.taken f r)
      (last : nextActiveStep steps (some step.order) = none)
  | goesOn (next : ApprovalStep) (h : Stands env requester steps next [] st')
      (full : ∀ r ∈ (hall env requester step).rows, requiredOf step ≤ Hall.taken f r)
      (order : nextActiveStep steps (some step.order) = some next.order)

variable {f : List (Text × Text)} {st : RequestState}

theorem Stands.order_eq (h : Stands env requester steps step f st) :
    step.order = st.request.currentStep :=
  of_decide_eq_true (List.find?_some h.current :)

theorem Stands.ne_nil (h : Stands env requester steps step f st) : steps ≠ [] := by
  intro hnil
  have := h.current
  rw [hnil] at this
  cases this

theorem Stands.requestSteps (h : Stands env requester steps step f st) (ws : List ApprovalStep) :
    requestSteps st.request ws = steps :=
  requestSteps_snapshot h.snapshot h.ne_nil

theorem Stands.row_free (h : Stands env requester steps step f st)
    (hmode : step.mode ≠ some .all) : Hall.taken f [] < (hall env requester step).seats := by
  have hseats : (hall env requester step).seats = max 1 (requiredOf step).toNat := if_neg hmode
  have hrows : (hall env requester step).rows = [[]] := if_neg hmode
  rw [hseats]
  rcases h.waits with hf | ⟨r, hr, hlt⟩
  · simp [hf]
  · rw [hrows, List.mem_singleton] at hr
    subst hr
    omega

/-- Who approves, and is accepted: a person without a seat for whom there is one. -/
theorem Stands.accepts (h : Stands env requester steps step f st) (hwf : env.workflowSteps.isSome)
    (hfresh : p ∉ f.map Prod.fst) (hpick : (hall env requester step).pick f p = some r) (now : ℤ) :
    ∃ st', st.decide { env with now := now } (approval p) = .ok st' := by
  obtain ⟨ws, hws⟩ := Option.isSome_iff_exists.mp hwf
  have hf := h.seats
  subst hf
  obtain ⟨e, he⟩ := eligibility_of_pick hpick
  have he' := he
  unfold eligibility at he'
  obtain ⟨me, hme, helig⟩ := Option.bind_eq_some_iff.mp he'
  have helig : approverEligibility step me
      ⟨requester, env.entityOwnerUserId, none, env.delegations⟩ env.candidates = .ok e := by
    cases hx : approverEligibility step me
        ⟨requester, env.entityOwnerUserId, none, env.delegations⟩ env.candidates with
    | error x => rw [hx] at helig; cases helig
    | ok e' => rw [hx] at helig; cases helig; rfl
  refine ⟨_, decide_eq_ok.mpr ⟨_, ⟨{
    pending := h.pending
    workflowSteps := ws
    workflow := hws
    step := step
    current := by rw [h.requestSteps]; exact h.current
    me := me
    member := hme
    elig := e
    eligible := by unfold eligibilityContext; rw [h.requester_eq]; exact helig
    signed := fun _ _ => rfl
    once := ?_
    isOpen := ?_
    row_eq := rfl }⟩, rfl⟩⟩
  · intro d hd hdp
    apply hfresh
    rw [seatsOf_persons]
    exact List.mem_map.mpr ⟨d, hd, by rw [hdp]; rfl⟩
  · intro hmode
    rw [pick_all h.approving hmode he] at hpick
    exact ⟨r, List.mem_of_find?_eq_some hpick, by simpa using List.find?_some hpick⟩

theorem acceptance_row {c : DecideCall} {req : ApprovalRequest} {before : List DecisionRow}
    {row : DecisionRow} (a : Acceptance c.env c.input req before row) :
    row.step = req.currentStep ∧ row.approverUserId = some c.input.userId ∧
      row.decision = c.input.decision ∧ row.rule.isSome := by
  refine ⟨congrArg DecisionRow.step a.row_eq, congrArg DecisionRow.approverUserId a.row_eq,
    congrArg DecisionRow.decision a.row_eq, ?_⟩
  have hrule := congrArg DecisionRow.rule a.row_eq
  have hne := (eligible_spec a.eligible).2.2.1
  rw [hrule]
  obtain ⟨r, rs, hr⟩ := List.exists_cons_of_ne_nil hne
  cases hfind : a.elig.rules.find? (openRules a.step before).contains <;> simp [hr]

/-- The seat of an accepted call. -/
theorem Stands.seat (h : Stands env requester steps step f st) {x : ℤ × DecideInput}
    {row : DecisionRow} (a : Acceptance (env.call x).env (env.call x).input st.request
      (onStep st.decisions st.request.currentStep) row) :
    x.2.userId ∉ f.map Prod.fst ∧ ∃ r, (hall env requester step).pick f x.2.userId = some r ∧
      seatsOf step [row] = [(x.2.userId, r)] := by
  have hcur := a.current
  rw [h.requestSteps, h.current, Option.some.injEq] at hcur
  have helig := a.eligible
  unfold eligibilityContext at helig
  rw [h.requester_eq, ← hcur] at helig
  have he : eligibility env requester step x.2.userId = some a.elig := by
    unfold eligibility
    have hmem : env.candidates.find? (fun c => c.userId = x.2.userId) = some a.me := a.member
    change approverEligibility step a.me
      ⟨requester, env.entityOwnerUserId, none, env.delegations⟩ env.candidates = .ok a.elig at helig
    rw [hmem, Option.bind_some, helig]
    rfl
  obtain ⟨-, hperson, -, -⟩ := acceptance_row a
  have hperson : row.approverUserId = some x.2.userId := hperson
  refine ⟨?_, ?_⟩
  · intro hin
    rw [← h.seats, seatsOf_persons] at hin
    obtain ⟨d, hd, hdp⟩ := List.mem_map.mp hin
    obtain ⟨u, hu⟩ := Option.isSome_iff_exists.mp (h.approving d hd).2.1
    rw [hu, Option.getD_some] at hdp
    exact a.once d hd (hdp ▸ hu)
  · by_cases hmode : step.mode = some .all
    · rw [← h.seats, pick_all h.approving hmode he]
      have hrule := congrArg DecisionRow.rule a.row_eq
      rw [← hcur] at hrule
      obtain ⟨q, hq, hopen⟩ := a.isOpen (hcur ▸ hmode)
      rw [← hcur] at hopen
      obtain ⟨r, hr⟩ : ∃ r, a.elig.rules.find? (openRules step (onStep st.decisions
          st.request.currentStep)).contains = some r := by
        rw [← Option.isSome_iff_exists, List.find?_isSome]
        exact ⟨q, hq, by simpa using hopen⟩
      rw [hr] at hrule
      have hrule : row.rule = some r := hrule
      refine ⟨r, hr, ?_⟩
      simp [seatsOf, hmode, hperson, hrule]
    · refine ⟨[], ?_, by simp [seatsOf, hmode, hperson]⟩
      rw [← h.seats]
      apply pick_any hmode he
      rw [h.seats]
      exact h.row_free hmode

theorem seatsOf_append (ds es : List DecisionRow) :
    seatsOf step (ds ++ es) = seatsOf step ds ++ seatsOf step es := List.map_append

/-- One accepted call: the person takes her seat, and the request stays, moves on or ends. -/
theorem Stands.moves (h : Stands env requester steps step f st) {x : ℤ × DecideInput}
    {st' : RequestState} (hst : st.decide (env.call x).env (env.call x).input = .ok st') :
    x.2.userId ∉ f.map Prod.fst ∧ ∃ r, (hall env requester step).pick f x.2.userId = some r ∧
      Moves env requester steps step (f ++ [(x.2.userId, r)]) x.2.decision st' := by
  obtain ⟨row, ⟨a⟩, rfl⟩ := decide_eq_ok.mp hst
  obtain ⟨hfresh, r, hpick, hseat⟩ := h.seat a
  obtain ⟨hrowstep, hperson, hdecision, hrule⟩ := acceptance_row a
  refine ⟨hfresh, r, hpick, ?_⟩
  have hreached := h.reached.sit hfresh hpick
  obtain ⟨hreq, hsnap⟩ := decideWrite_frame (env.call x).env st.request
    (onStep (st.decisions ++ [row]) st.request.currentStep) st.request
  have hcases := decideWrite_cases (env.call x).env st.request
    (onStep (st.decisions ++ [row]) st.request.currentStep) st.request (h.requestSteps _)
  have hrows : onStep (st.decisions ++ [row]) st.request.currentStep =
      onStep st.decisions st.request.currentStep ++ [row] := onStep_append_of_eq hrowstep
  have hup : ∀ d ∈ st.decisions ++ [row], d.step ≤ st.request.currentStep := by
    intro d hd
    rcases List.mem_append.mp hd with hd | hd
    · exact h.upTo d hd
    · rw [List.mem_singleton] at hd
      rw [hd, hrowstep]
  have hseats : seatsOf step (onStep (st.decisions ++ [row]) st.request.currentStep) =
      f ++ [(x.2.userId, r)] := by
    rw [hrows, seatsOf_append, h.seats, hseat]
  cases hkind : x.2.decision with
  | rejected =>
    have hadv : advance steps st.request.currentStep
        (onStep (st.decisions ++ [row]) st.request.currentStep) = .rejected :=
      advance_rejected_iff.mpr ⟨row, by simp [hrows], hdecision.trans hkind⟩
    rcases hcases with ⟨-, hs, -⟩ | ⟨h', -⟩ | ⟨h', -⟩ | ⟨next, h', -⟩
    · exact .ends nofun (Or.inl hs)
    · rw [hadv] at h'; cases h'
    · rw [hadv] at h'; cases h'
    · rw [hadv] at h'; cases h'
  | changesRequested =>
    have hadv : ∀ next, advance steps st.request.currentStep
        (onStep (st.decisions ++ [row]) st.request.currentStep) ≠ .approved ∧
        advance steps st.request.currentStep
        (onStep (st.decisions ++ [row]) st.request.currentStep) ≠ .pending next := by
      intro next
      have hany : ((onStep (st.decisions ++ [row]) st.request.currentStep).any
          fun d => d.decision = .changesRequested) = true := by
        rw [List.any_eq_true]
        exact ⟨row, by simp [hrows], by simpa using hdecision.trans hkind⟩
      unfold advance
      rw [if_pos hany]
      split <;> exact ⟨nofun, nofun⟩
    rcases hcases with ⟨-, hs, -⟩ | ⟨-, hs, -⟩ | ⟨h', -⟩ | ⟨next, h', -⟩
    · exact .ends nofun (Or.inl hs)
    · exact .ends nofun (Or.inr hs)
    · exact absurd h' (hadv 0).1
    · exact absurd h' (hadv next).2
  | approved =>
    have happroving : Approving (onStep (st.decisions ++ [row]) st.request.currentStep) := by
      intro d hd
      rw [hrows] at hd
      rcases List.mem_append.mp hd with hd | hd
      · exact h.approving d hd
      · rw [List.mem_singleton] at hd
        subst hd
        exact ⟨hdecision.trans hkind, by rw [hperson]; rfl, hrule⟩
    have hsat := stepSatisfied_iff happroving (hseats ▸ hreached.seated)
    rw [hseats] at hsat
    have hnot : ∀ d ∈ onStep (st.decisions ++ [row]) st.request.currentStep,
        d.decision = .approved := fun d hd => (happroving d hd).1
    rcases hcases with ⟨h', -⟩ | ⟨h', -⟩ | ⟨hadv, hs, -⟩ | ⟨next, hadv, hs, hc⟩
    · obtain ⟨d, hd, hrej⟩ := advance_rejected_iff.mp h'
      rw [hnot d hd] at hrej
      cases hrej
    · exfalso
      unfold advance at h'
      split at h'
      · cases h'
      · split at h'
        · rename_i hany
          obtain ⟨d, hd, hch⟩ := List.any_eq_true.mp hany
          rw [hnot d hd] at hch
          cases hch
        · dsimp only at h'
          split at h'
          · cases h'
          · split at h' <;> cases h'
    · rcases advance_moves h.current hadv (Or.inl rfl) with ⟨hsame, -⟩ | ⟨hfull, hmove⟩
      · cases hsame
      · rcases hmove with ⟨-, hlast⟩ | ⟨next, hout, -⟩
        · exact .approves hs (hsat.mp hfull) (by rw [h.order_eq]; exact hlast)
        · cases hout
    · rcases advance_moves h.current hadv (Or.inr ⟨next, rfl⟩) with ⟨hsame, hshort⟩ | ⟨hfull, hmove⟩
      · rw [RequestOutcome.pending.injEq] at hsame
        subst hsame
        refine .stays ⟨hsnap.trans h.snapshot, hreq.trans h.requester_eq, hs.trans h.pending, ?_, ?_,
          ?_, ?_, hreached, Or.inr ?_⟩
        · simp only [hc]; exact h.current
        · simp only [hc]; exact hup
        · simp only [hc]; exact happroving
        · simp only [hc]; exact hseats
        · by_contra hall
          push Not at hall
          rw [hsat.mpr hall] at hshort
          cases hshort
      · rcases hmove with ⟨hout, -⟩ | ⟨next', hout, hnext⟩
        · cases hout
        · rw [RequestOutcome.pending.injEq] at hout
          subst hout
          obtain ⟨⟨s, hs', hskip, hlt, ho⟩, -⟩ := nextActiveStep_eq_some.mp hnext
          obtain ⟨t, ht⟩ : ∃ t, steps.find? (fun s => s.order = next) = some t := by
            rw [← Option.isSome_iff_exists, List.find?_isSome]
            exact ⟨s, hs', by simpa using ho⟩
          have hto : t.order = next := of_decide_eq_true (List.find?_some ht :)
          have hnone : onStep (st.decisions ++ [row]) next = [] := by
            refine List.filter_eq_nil_iff.mpr fun d hd => ?_
            have h1 := hup d hd
            have h2 := hlt _ rfl
            simp only [decide_eq_true_eq]
            omega
          refine .goesOn t ⟨hsnap.trans h.snapshot, hreq.trans h.requester_eq, hs.trans h.pending,
            ?_, ?_, ?_, ?_, .empty, Or.inl rfl⟩ (hsat.mp hfull) (by rw [h.order_eq, hto]; exact hnext)
          · simp only [hc]; exact ht
          · simp only [hc]
            intro d hd
            have h1 := hup d hd
            have h2 := hlt _ rfl
            omega
          · simp only [hc, hnone]; exact fun d hd => absurd hd List.not_mem_nil
          · simp only [hc, hnone]; rfl

/-! ## Runs -/

/-- A call is refused, or it moves the request. -/
theorem Stands.call (h : Stands env requester steps step f st) (x : ℤ × DecideInput) :
    st.call (env.call x) = st ∨ (x.2.userId ∉ f.map Prod.fst ∧ ∃ r,
      (hall env requester step).pick f x.2.userId = some r ∧
        Moves env requester steps step (f ++ [(x.2.userId, r)]) x.2.decision (st.call (env.call x))) := by
  unfold RequestState.call
  split
  · rename_i st' hst
    exact Or.inr (h.moves hst)
  · exact Or.inl rfl

theorem not_approved_of_ended {st' : RequestState}
    (h : st'.request.status = .rejected ∨ st'.request.status = .changesRequested)
    (cs : List DecideCall) : (st'.calls cs).request.status ≠ .approved := by
  rw [calls_of_not_pending (by rcases h with h | h <;> rw [h] <;> nofun)]
  rcases h with h | h <;> rw [h] <;> nofun

theorem Stands.stop (h : Stands env requester steps step f st)
    (hskip : ∃ s ∈ steps, s.skipped = none ∧ s.order = step.order) : step ∈ stops steps := by
  obtain ⟨s, hs, hnone, ho⟩ := hskip
  refine List.mem_filterMap.mpr ⟨s, List.mem_filter.mpr ⟨hs, by rw [hnone]; rfl⟩, ?_⟩
  rw [ho, h.order_eq]
  exact h.current

/-- While a passable step waits, there is a seat. -/
theorem Stands.free_row (h : Stands env requester steps step f st)
    (hpass : Passable env requester step) :
    ∃ r ∈ (hall env requester step).rows, Hall.taken f r < (hall env requester step).seats := by
  by_cases hmode : step.mode = some .all
  · have hseats : (hall env requester step).seats = (requiredOf step).toNat := if_pos hmode
    have hrows : (hall env requester step).rows = stepRules step := if_pos hmode
    have hone := hpass.1 hmode
    rcases h.waits with hf | ⟨r, hr, hlt⟩
    · obtain ⟨r, rs, hr⟩ : ∃ r rs, stepRules step = r :: rs := by
        unfold stepRules
        split
        · exact ⟨_, _, rfl⟩
        · exact ⟨_, _, rfl⟩
      refine ⟨r, by rw [hrows, hr]; exact List.mem_cons_self, ?_⟩
      rw [hf, Hall.taken_nil]
      omega
    · exact ⟨r, hr, by omega⟩
  · exact ⟨[], by simp [hall, hmode], h.row_free hmode⟩

/-- A passable step accepts one more approval. -/
theorem Stands.next (h : Stands env requester steps step f st) (hwf : env.workflowSteps.isSome)
    (hpass : Passable env requester step) : ∃ me ∈ env.candidates, ∀ now, ∃ st',
      st.decide { env with now := now } (approval me.userId) = .ok st' := by
  obtain ⟨r, hr, hfree⟩ := h.free_row hpass
  obtain ⟨p, hp, hfresh, q, hpick⟩ := h.reached.seated.next hpass.2 hr hfree
  obtain ⟨me, hme, rfl⟩ := List.mem_map.mp (mem_distinct.mp hp)
  exact ⟨me, hme, fun now => h.accepts hwf hfresh hpick now⟩

/-- The step that comes next is a stop, and fewer follow it. -/
theorem next_stop {next : ApprovalStep} {st' : RequestState}
    (hst' : Stands env requester steps next [] st')
    (hnext : nextActiveStep steps (some step.order) = some next.order) :
    next ∈ stops steps ∧ (steps.filter fun s => next.order < s.order).length <
      (steps.filter fun s => step.order < s.order).length := by
  obtain ⟨⟨s, hs, hskip, hlt, ho⟩, -⟩ := nextActiveStep_eq_some.mp hnext
  have hlt := hlt _ rfl
  refine ⟨hst'.stop ⟨s, hs, hskip, ho⟩, ?_⟩
  have hsub : (steps.filter fun s => next.order < s.order) =
      (steps.filter fun s => step.order < s.order).filter fun s => next.order < s.order := by
    rw [List.filter_filter]
    refine List.filter_congr fun t _ => ?_
    by_cases ht : next.order < t.order
    · simp [ht, show step.order < t.order by omega]
    · simp [ht]
  rw [hsub]
  refine List.length_filter_lt_length_iff_exists.mpr ⟨s, List.mem_filter.mpr ⟨hs, ?_⟩, ?_⟩
  · simpa using hlt
  · simp [ho]

/-- As many persons sit as there are members, at most. -/
theorem Stands.length_lt (h : Stands env requester steps step f st) (hp : p ∈
    (hall env requester step).people) (hfresh : p ∉ f.map Prod.fst) :
    f.length < (hall env requester step).people.length := by
  have hseated := h.reached.seated
  have hnd : (p :: f.map Prod.fst).Nodup := List.nodup_cons.mpr ⟨hfresh, hseated.once⟩
  have hsub : p :: f.map Prod.fst ⊆ (hall env requester step).people := by
    intro q hq
    rcases List.mem_cons.mp hq with rfl | hq
    · exact hp
    · obtain ⟨x, hx, rfl⟩ := List.mem_map.mp hq
      exact (hall env requester step).meets_people _ _ (hseated.order x hx).2.1
  have := (List.subperm_of_subset hnd hsub).length_le
  simpa using this

/-- From a step at which a request stands, where it and those after it are passable, calls lead
to approval. -/
theorem Stands.completes (hwf : env.workflowSteps.isSome)
    (hpass : ∀ step ∈ stops steps, Passable env requester step) :
    ∀ (later rest : ℕ) {step : ApprovalStep} {f : List (Text × Text)} {st : RequestState},
      Stands env requester steps step f st → step ∈ stops steps →
      (steps.filter fun s => step.order < s.order).length ≤ later →
      (hall env requester step).people.length ≤ f.length + rest →
      ∃ ys : List (ℤ × DecideInput), (st.calls (ys.map env.call)).request.status = .approved := by
  -- by the steps to come, and on one step by the persons to come
  intro later
  induction later using Nat.strong_induction_on with
  | _ later ih =>
    intro rest
    induction rest with
    | zero =>
      intro step f st h hstop _ hrest
      exfalso
      obtain ⟨r, hr, hfree⟩ := h.free_row (hpass step hstop)
      obtain ⟨p, hp, hfresh, -⟩ := h.reached.seated.next (hpass step hstop).2 hr hfree
      have := h.length_lt hp hfresh
      omega
    | succ rest ihrest =>
      intro step f st h hstop hlater hrest
      obtain ⟨me, -, haccept⟩ := h.next hwf (hpass step hstop)
      obtain ⟨st', hst'⟩ := haccept 0
      have hst' : st.decide (env.call (0, approval me.userId)).env
          (env.call (0, approval me.userId)).input = .ok st' := hst'
      obtain ⟨-, r, -, hmoves⟩ := h.moves hst'
      suffices hrun : ∃ ys : List (ℤ × DecideInput),
          (st'.calls (ys.map env.call)).request.status = .approved by
        obtain ⟨ys, hys⟩ := hrun
        refine ⟨(0, approval me.userId) :: ys, ?_⟩
        change ((st.call _).calls (ys.map env.call)).request.status = .approved
        rw [call_of_decide hst']
        exact hys
      cases hmoves with
      | ends against => exact absurd rfl against
      | stays hstay =>
        exact ihrest hstay hstop hlater (by simp only [List.length_append, List.length_singleton]; omega)
      | approves happroved => exact ⟨[], happroved⟩
      | goesOn next hnext _ horder =>
        obtain ⟨hin, hfewer⟩ := next_stop hnext horder
        exact ih _ (by omega) _ hnext hin le_rfl (Nat.le_add_left _ _)

/-- What a run makes of an open request: it stands somewhere, at a stop, or has an outcome. -/
theorem Stands.run (h : Stands env requester steps step f st) (hstop : step ∈ stops steps)
    (xs : List (ℤ × DecideInput)) :
    (st.calls (xs.map env.call)).request.status ≠ .pending ∨
      ∃ step' ∈ stops steps, ∃ f', Stands env requester steps step' f' (st.calls (xs.map env.call)) := by
  induction xs generalizing step f st with
  | nil => exact Or.inr ⟨step, hstop, f, h⟩
  | cons x xs ih =>
    change ((st.call (env.call x)).calls (xs.map env.call)).request.status ≠ .pending ∨
      ∃ step' ∈ stops steps, ∃ f', Stands env requester steps step' f'
        ((st.call (env.call x)).calls (xs.map env.call))
    have hended : (st.call (env.call x)).request.status ≠ .pending →
        ((st.call (env.call x)).calls (xs.map env.call)).request.status ≠ .pending := by
      intro hne
      rw [calls_of_not_pending hne]
      exact hne
    rcases h.call x with hsame | ⟨-, r, -, hmoves⟩
    · rw [hsame]
      exact ih h hstop
    · cases hmoves with
      | ends _ hend =>
        refine Or.inl (hended ?_)
        rcases hend with hend | hend <;> rw [hend] <;> nofun
      | stays hstay => exact ih hstay hstop
      | approves happroved =>
        refine Or.inl (hended ?_)
        rw [happroved]
        nofun
      | goesOn next hnext _ horder => exact ih hnext (next_stop hnext horder).1

/-- Where all steps are passable, an open request can always be completed. -/
theorem Stands.canComplete (h : Stands env requester steps step f st) (hstop : step ∈ stops steps)
    (hwf : env.workflowSteps.isSome)
    (hpass : ∀ step ∈ stops steps, Passable env requester step) : CanComplete env st := by
  intro xs hpending
  rcases h.run hstop xs with hne | ⟨step', hstop', f', h'⟩
  · exact absurd hpending hne
  · exact ⟨h'.next hwf (hpass step' hstop'),
      h'.completes hwf hpass _ _ hstop' le_rfl (Nat.le_add_left _ _)⟩

/-! ## Blocked steps -/

/-- A run to approval stands, before any decision, at each stop that is to come. -/
theorem Stands.visits (h : Stands env requester steps step f st) {xs : List (ℤ × DecideInput)}
    (happroved : (st.calls (xs.map env.call)).request.status = .approved) {t : ApprovalStep}
    (ht : t ∈ stops steps) (hlt : step.order < t.order) :
    ∃ pre post, xs = pre ++ post ∧ Stands env requester steps t [] (st.calls (pre.map env.call)) := by
  induction xs generalizing step f st with
  | nil =>
    have hstatus : st.request.status = .approved := happroved
    rw [h.pending] at hstatus
    cases hstatus
  | cons x xs ih =>
    have happroved : ((st.call (env.call x)).calls (xs.map env.call)).request.status = .approved :=
      happroved
    have hlater : ∀ {s' : ApprovalStep} {f' : List (Text × Text)},
        Stands env requester steps s' f' (st.call (env.call x)) → s'.order < t.order →
          ∃ pre post, x :: xs = pre ++ post ∧
            Stands env requester steps t [] (st.calls (pre.map env.call)) := by
      intro s' f' hs' hlt'
      obtain ⟨pre, post, rfl, hpre⟩ := ih hs' happroved hlt'
      exact ⟨x :: pre, post, rfl, hpre⟩
    obtain ⟨s, hs, hst⟩ := List.mem_filterMap.mp ht
    obtain ⟨hs, hskip⟩ := List.mem_filter.mp hs
    have hskip : s.skipped = none := by simpa using hskip
    have hso : t.order = s.order := of_decide_eq_true (List.find?_some hst :)
    rcases h.call x with hsame | ⟨-, r, -, hmoves⟩
    · exact hlater (by rw [hsame]; exact h) hlt
    · cases hmoves with
      | ends _ hend => exact absurd happroved (not_approved_of_ended hend _)
      | stays hstay => exact hlater hstay hlt
      | approves _ _ hlast =>
        obtain ⟨a, ha, hle⟩ := nextActiveStep_eq_none.mp hlast s hs hskip
        rw [Option.some.injEq] at ha
        omega
      | goesOn next hnext _ horder =>
        have hle := (nextActiveStep_eq_some.mp horder).2 s hs hskip (by
          intro a ha
          rw [Option.some.injEq] at ha
          omega)
        rcases lt_or_eq_of_le hle with hlt' | heq
        · exact hlater hnext (by omega)
        · have : next = t := by
            have h1 := hnext.current
            rw [← hnext.order_eq, heq, hst, Option.some.injEq] at h1
            exact h1.symm
          subst this
          exact ⟨[x], xs, rfl, hnext⟩

/-- A seat that is free when somebody sits is an approval that is missing. -/
theorem short_of_free (hf : (hall env requester step).Reached f) (hne : f ≠ [])
    (hr : r ∈ (hall env requester step).rows)
    (hfree : Hall.taken f r < (hall env requester step).seats) :
    (Hall.taken f r : ℤ) < requiredOf step := by
  by_cases hmode : step.mode = some .all
  · have hseats : (hall env requester step).seats = (requiredOf step).toNat := if_pos hmode
    omega
  · have hseats : (hall env requester step).seats = max 1 (requiredOf step).toNat := if_neg hmode
    have hrows : (hall env requester step).rows = [[]] := if_neg hmode
    obtain ⟨x, xs, rfl⟩ := List.exists_cons_of_ne_nil hne
    have hx := (hf.seated.order x List.mem_cons_self).1
    rw [hrows, List.mem_singleton] at hx hr
    have : 1 ≤ Hall.taken (x :: xs) r := by
      unfold Hall.taken
      rw [List.countP_cons_of_pos (by simp [hx, hr])]
      omega
    omega

/-- A seating that leaves a row short is brought about by approvals. -/
theorem Stands.reach (h : Stands env requester steps step [] st) (hwf : env.workflowSteps.isSome)
    (hf : (hall env requester step).Reached f) (hr : r ∈ (hall env requester step).rows)
    (hfree : Hall.taken f r < (hall env requester step).seats) :
    ∃ xs : List (ℤ × DecideInput), Stands env requester steps step f
      (st.calls (xs.map env.call)) := by
  induction hf with
  | empty => exact ⟨[], h⟩
  | @sit f p q old fresh hpick ih =>
    have hfree' : Hall.taken f r < (hall env requester step).seats := by
      rw [Hall.taken_append] at hfree
      omega
    obtain ⟨xs, hxs⟩ := ih hfree'
    obtain ⟨st', hst'⟩ := hxs.accepts hwf fresh hpick 0
    have hst' : (st.calls (xs.map env.call)).decide (env.call (0, approval p)).env
        (env.call (0, approval p)).input = .ok st' := hst'
    refine ⟨xs ++ [(0, approval p)], ?_⟩
    have hcalls : st.calls ((xs ++ [(0, approval p)]).map env.call) = st' := by
      rw [List.map_append, calls_append]
      exact call_of_decide hst'
    rw [hcalls]
    have hshort := short_of_free (old.sit fresh hpick) (by simp) hr hfree
    obtain ⟨-, q', hpick', hmoves⟩ := hxs.moves hst'
    have hq : q' = q := Option.some.inj (hpick'.symm.trans hpick)
    subst hq
    cases hmoves with
    | ends against => exact absurd rfl against
    | stays hstay => exact hstay
    | approves _ hfull => exact absurd (hfull r hr) (not_le.mpr hshort)
    | goesOn _ _ hfull => exact absurd (hfull r hr) (not_le.mpr hshort)

/-- From where a row is short and everyone for it has decided, no calls lead to approval. -/
theorem Stands.blocked (h : Stands env requester steps step f st)
    (hr : r ∈ (hall env requester step).rows)
    (hfree : Hall.taken f r < (hall env requester step).seats)
    (hall' : ∀ p, (hall env requester step).meets p r = true → p ∈ f.map Prod.fst)
    (xs : List (ℤ × DecideInput)) :
    (st.calls (xs.map env.call)).request.status ≠ .approved := by
  induction xs generalizing f st with
  | nil =>
    change st.request.status ≠ .approved
    rw [h.pending]
    nofun
  | cons x xs ih =>
    change ((st.call (env.call x)).calls (xs.map env.call)).request.status ≠ .approved
    rcases h.call x with hsame | ⟨hfresh, q, hpick, hmoves⟩
    · rw [hsame]
      exact ih h hfree hall'
    · have hsame := Hall.taken_of_blocked hall' hfresh hpick
      rw [← hsame] at hfree
      have hshort := short_of_free (h.reached.sit hfresh hpick) (by simp) hr hfree
      cases hmoves with
      | ends _ hend => exact not_approved_of_ended hend _
      | stays hstay =>
        exact ih hstay hfree fun p hp => by
          rw [List.map_append]
          exact List.mem_append_left _ (hall' p hp)
      | approves _ hfull => exact absurd (hfull r hr) (not_le.mpr hshort)
      | goesOn _ _ hfull => exact absurd (hfull r hr) (not_le.mpr hshort)

/-- A step that a request can pass from its first decision on, whatever happens, is passable. -/
theorem Stands.passable (h : Stands env requester steps step [] st)
    (hwf : env.workflowSteps.isSome) (hcan : CanComplete env st) : Passable env requester step := by
  constructor
  · intro hmode
    obtain ⟨⟨me, -, haccept⟩, -⟩ := hcan [] h.pending
    obtain ⟨st', hst'⟩ := haccept 0
    have hst' : st.decide (env.call (0, approval me.userId)).env
        (env.call (0, approval me.userId)).input = .ok st' := hst'
    obtain ⟨-, r, hpick, -⟩ := h.moves hst'
    have hfree := (Hall.pick_eq_some.mp hpick).2.2.1
    have hseats : (hall env requester step).seats = (requiredOf step).toNat := if_pos hmode
    omega
  · by_contra hnot
    obtain ⟨f, hf, r, hr, hfree, hall'⟩ := Hall.blocked_of_not_robust hnot
    obtain ⟨xs, hxs⟩ := h.reach hwf hf hr hfree
    obtain ⟨-, ys, hys⟩ := hcan xs hxs.pending
    exact hxs.blocked hr hfree hall' ys hys

/-! ## The routes that complete -/

/-- What `planRoute` reads among these members. -/
def routeInput (env : DecideEnv) (requester : Text) (entityApproverFunction : Option Text)
    (facts : Value) (exclude : List Text) : PlanInput where
  requester := env.candidates.find? fun c => c.userId = requester
  facts := facts
  candidates := env.candidates
  ctx := ⟨some requester, env.entityOwnerUserId, entityApproverFunction, env.delegations⟩
  exclude := exclude

/-- The request that `requestApproval` stores for a route. -/
def PlannedRoute.request (route : PlannedRoute) (requester : Text) (dueAt : Option ℤ) :
    Option RequestState :=
  route.firstOrder.map fun first =>
    ⟨⟨some requester, first, .pending, dueAt, some route.steps⟩, []⟩

theorem request_eq_open {baseSteps : List ApprovalStep} {input : PlanInput} {route : PlannedRoute}
    (hplan : planRoute baseSteps input = .ok route) (requester : Text) (dueAt : Option ℤ) :
    route.request requester dueAt = openRequest route.steps (some requester) dueAt := by
  unfold planRoute at hplan
  cases hp : (baseSteps.insertionSort fun a b => a.order ≤ b.order).mapM
      fun s => planOne s input with
  | error e => rw [hp] at hplan; cases hplan
  | ok planned =>
    rw [hp] at hplan
    cases hplan
    rfl

/-- Where the orders differ, a request stands at each step that is not left out. -/
theorem mem_stops (horders : (steps.map (·.order)).Nodup) :
    step ∈ stops steps ↔ step ∈ steps ∧ step.skipped = none := by
  have hfind : ∀ s ∈ steps, steps.find? (fun t => t.order = s.order) = some s := by
    intro s hs
    obtain ⟨t, ht⟩ : ∃ t, steps.find? (fun t => t.order = s.order) = some t := by
      rw [← Option.isSome_iff_exists, List.find?_isSome]
      exact ⟨s, hs, by simp⟩
    rw [ht, step_of_order horders (List.mem_of_find?_eq_some ht) hs
      (of_decide_eq_true (List.find?_some ht :))]
  unfold stops
  constructor
  · intro h
    obtain ⟨s, hs, hst⟩ := List.mem_filterMap.mp h
    obtain ⟨hs, hskip⟩ := List.mem_filter.mp hs
    rw [hfind s hs, Option.some.injEq] at hst
    exact hst ▸ ⟨hs, by simpa using hskip⟩
  · rintro ⟨hs, hskip⟩
    exact List.mem_filterMap.mpr ⟨step, List.mem_filter.mpr ⟨hs, by simp [hskip]⟩, hfind step hs⟩

theorem Stands.open (env : DecideEnv) {dueAt : Option ℤ} (h : openRequest steps requester dueAt = some st) :
    ∃ step ∈ stops steps, Stands env requester steps step [] st ∧
      firstActiveStep steps = some step.order := by
  unfold openRequest at h
  obtain ⟨first, hfirst, rfl⟩ := Option.map_eq_some_iff.mp h
  obtain ⟨⟨s, hs, hskip, -, ho⟩, -⟩ := nextActiveStep_eq_some.mp hfirst
  obtain ⟨step, hstep⟩ : ∃ t, steps.find? (fun s => s.order = first) = some t := by
    rw [← Option.isSome_iff_exists, List.find?_isSome]
    exact ⟨s, hs, by simpa using ho⟩
  have hso : step.order = first := of_decide_eq_true (List.find?_some hstep :)
  have hstands : Stands env requester steps step []
      ⟨⟨requester, first, .pending, dueAt, some steps⟩, []⟩ :=
    ⟨rfl, rfl, rfl, hstep, fun d hd => absurd hd List.not_mem_nil,
      fun d hd => absurd hd List.not_mem_nil, rfl, .empty, Or.inl rfl⟩
  exact ⟨step, hstands.stop ⟨s, hs, hskip, ho.trans hso.symm⟩, hstands, by rw [hso]; exact hfirst⟩

/-- An open request can always be completed exactly when each of its steps asks, in the mode
`all`, for at least one approval, and, however the rules before a rule are filled, leaves enough
persons for it. -/
theorem route_completes_iff (hwf : env.workflowSteps.isSome) {baseSteps : List ApprovalStep}
    {requester : Text} {entityApproverFunction : Option Text} {facts : Value} {exclude : List Text}
    {route : PlannedRoute} (hplan : planRoute baseSteps
      (routeInput env requester entityApproverFunction facts exclude) = .ok route)
    {dueAt : Option ℤ} (hopen : route.request requester dueAt = some st) :
    CanComplete env st ↔ ∀ step ∈ stops route.steps, Passable env (some requester) step := by
  rw [request_eq_open hplan] at hopen
  obtain ⟨first, hfirst, hstands, hlowest⟩ := Stands.open env hopen
  constructor
  · intro hcan t ht
    obtain ⟨s, hs, hst⟩ := List.mem_filterMap.mp ht
    obtain ⟨hs, hskip⟩ := List.mem_filter.mp hs
    have hso : t.order = s.order := of_decide_eq_true (List.find?_some hst :)
    have hle := (nextActiveStep_eq_some.mp hlowest).2 s hs (by simpa using hskip) nofun
    rcases lt_or_eq_of_le hle with hlt | heq
    · -- a run to approval comes to the step
      obtain ⟨-, ys, hys⟩ := hcan [] hstands.pending
      obtain ⟨pre, post, -, hpre⟩ := hstands.visits hys ht (by omega)
      refine hpre.passable hwf fun xs => ?_
      rw [← calls_append, ← List.map_append]
      exact hcan (pre ++ xs)
    · have : first = t := by
        have h1 := hstands.current
        rw [← hstands.order_eq, heq, hst, Option.some.injEq] at h1
        exact h1.symm
      subst this
      exact hstands.passable hwf hcan
  · exact hstands.canComplete hfirst hwf

/-- One step with one approver can always be completed. -/
theorem route_completes_iff_sole :
    CanComplete (plainCall (js "a") .approved).env
      ⟨⟨some (js "r"), 1, .pending, none, some [plainStep 1 (js "user:a")]⟩, []⟩ := by
  have hplan : planRoute [plainStep 1 (js "user:a")]
      (routeInput (plainCall (js "a") .approved).env (js "r") none (.obj []) []) =
        .ok ⟨[plainStep 1 (js "user:a")], some 1, []⟩ := rfl
  have hopen : PlannedRoute.request ⟨[plainStep 1 (js "user:a")], some 1, []⟩ (js "r") none =
      some ⟨⟨some (js "r"), 1, .pending, none, some [plainStep 1 (js "user:a")]⟩, []⟩ := rfl
  rw [route_completes_iff rfl hplan hopen]
  intro step hstep
  obtain rfl : step = plainStep 1 (js "user:a") := List.mem_singleton.mp hstep
  refine ⟨nofun, fun r hr f hf => ?_⟩
  obtain rfl : r = [] := List.mem_singleton.mp hr
  obtain rfl : f = [] := List.eq_nil_iff_forall_not_mem.mpr fun x hx => by
    simpa [Hall.before, hall, plainStep] using (hf.meets x hx).1
  decide

/-! ## A step that an early approval blocks -/

/-- Two posts, of which `a` holds both and `b` the first. -/
def overlapStep : ApprovalStep :=
  { plainStep 1 (js "function:risk_control") with
    approvers := some [js "function:risk_control", js "function:compliance"]
    mode := some .all }

def overlapEnv : DecideEnv where
  workflowSteps := some [overlapStep]
  candidates :=
    [{ plainMember (js "a") with functions := [js "risk_control", js "compliance"] },
      { plainMember (js "b") with functions := [js "risk_control"] }, plainMember (js "r")]
  delegations := []
  entityOwnerUserId := none
  now := 0

/-- The route has no warning. When `a` approves first, she counts for the first post, `b` is
refused, and nobody is left for the second; the other way round the request is approved. -/
theorem early_approval_blocks :
    let st : RequestState := ⟨⟨some (js "r"), 1, .pending, none, some [overlapStep]⟩, []⟩
    planRoute [overlapStep] (routeInput overlapEnv (js "r") none (.obj []) []) =
        .ok ⟨[overlapStep], some 1, []⟩ ∧
      PlannedRoute.request ⟨[overlapStep], some 1, []⟩ (js "r") none = some st ∧
      ¬ CanComplete overlapEnv st ∧
      (st.calls ([(0, approval (js "b")), (0, approval (js "a"))].map
        overlapEnv.call)).request.status = .approved := by
  intro st
  refine ⟨by rfl, rfl, ?_, by decide +kernel⟩
  intro hcan
  have hpending : (st.calls ([(0, approval (js "a"))].map overlapEnv.call)).request.status =
      .pending := by decide +kernel
  obtain ⟨⟨me, hme, haccept⟩, -⟩ := hcan [(0, approval (js "a"))] hpending
  have hrefused : ∀ me ∈ overlapEnv.candidates,
      ((st.calls ([(0, approval (js "a"))].map overlapEnv.call)).decide { overlapEnv with now := 0 }
        (approval me.userId)).isOk = false := by decide +kernel
  obtain ⟨st', hst'⟩ := haccept 0
  have := hrefused me hme
  rw [hst'] at this
  cases this

end Klick
