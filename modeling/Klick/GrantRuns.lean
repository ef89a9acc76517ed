-- What the recorded uses of platform access rest on, and whether access to a
-- person of several organisations is all or nothing.
import Klick.GrantUses

open Js

namespace Klick.Lockbox.State

/-- The state after actions that all happen under a condition; none where one cannot. -/
def runIf (ok : State → Action → Bool) (s : State) : List Action → Option State
  | [] => some s
  | a :: as => if ok s a then (s.step a).bind fun s' => s'.runIf ok as else none

variable {s s' : State}

theorem reached_of_runIf {ok : State → Action → Bool} {start : State} {as : List Action}
    (h : ReachedIf (fun s a => ok s a = true) start s) (hs : s.runIf ok as = some s') :
    ReachedIf (fun s a => ok s a = true) start s' := by
  induction as generalizing s with
  | nil =>
    cases hs
    exact h
  | cons a as ih =>
    unfold runIf at hs
    split at hs
    · obtain ⟨t, ht, hrest⟩ := Option.bind_eq_some_iff.mp hs
      exact ih (h.step ‹_› ht) hrest
    · cases hs

/-! ## Uses and revocations -/

/-- No use follows the revocation of its grant. -/
def NoLateUse (log : List Entry) : Prop :=
  log.Pairwise fun earlier later => ∀ r d time, later = .used r → earlier ≠ .revoked r.grant.id d time

/-- What is asked of the recorded uses: each is covered by a grant in the table, none follows a
revocation of its grant, and no single-use grant has two. -/
structure Lawful (s : State) : Prop where
  covered : ∀ r, .used r ∈ s.log →
    ∃ g ∈ s.grants, g.id = r.grant.id ∧ Covered s.log r.orgId r.use r.now r.recordedAt g
  timely : NoLateUse s.log
  once : ∀ g ∈ s.grants, scopeSingleUse g.scope = true → (usesOf s.log g.id).length ≤ 1

/-- When a use is recorded, its grant has not been revoked since the call has read it. -/
def notOvertaken (s : State) : Action → Bool
  | .record k =>
    match s.calls k with
    | some ⟨_, _, _, .recording _ grant _⟩ =>
      s.grants.all fun g => g.id ≠ grant.id || g.revokedAt = none
    | _ => true
  | _ => true

theorem notOvertaken_spec {k : ℕ} {c : Call} {orgId : Text} {grant : Grant} {rest : List Text}
    (h : s.notOvertaken (.record k) = true) (hc : s.calls k = some c)
    (hst : c.stage = .recording orgId grant rest) :
    ∀ g ∈ s.grants, g.id = grant.id → g.revokedAt = none := by
  obtain ⟨orgIds, use, now, stage⟩ := c
  cases hst
  unfold notOvertaken at h
  dsimp only at h
  rw [hc] at h
  intro g hg hid
  have := List.all_eq_true.mp h g hg
  simpa [hid] using this

/-- What an action does to the chains and to the calls. -/
inductive Effect (s : State) (a : Action) (s' : State) : Prop
  | kept (hlog : s'.log = s.log) (hcalls : s'.calls = s.calls)
  | noted (e : Entry) (he : e.isUse = false) (hlog : s'.log = s.log ++ [e])
      (hcalls : s'.calls = s.calls)
  | started (k : ℕ) (use : GrantUse) (orgIds : List Text) (stage : Stage) (hk : s.calls k = none)
      (hstage : stage = .checking orgIds ∨ stage = .consuming orgIds) (hlog : s'.log = s.log)
      (hcalls : s'.calls = Function.update s.calls k (some ⟨orgIds, use, s.clock, stage⟩))
  | checked (k : ℕ) (c : Call) (orgId : Text) (rest : List Text) (stage : Stage)
      (hk : s.calls k = some c) (hc : c.stage = .checking (orgId :: rest))
      (hstage : stage = .checking rest ∨ stage = .returned false) (hlog : s'.log = s.log)
      (hcalls : s'.calls = Function.update s.calls k (some { c with stage := stage }))
  | found (k : ℕ) (c : Call) (orgId : Text) (rest : List Text) (rows : List Grant) (grant : Grant)
      (hk : s.calls k = some c) (hc : c.stage = .reading orgId rest)
      (hmatch : Matches orgId c.use c.now grant) (hlog : s'.log = s.log)
      (hcalls : s'.calls =
        Function.update s.calls k (some { c with stage := .recording orgId grant rest }))
  | missed (k : ℕ) (c : Call) (orgId : Text) (rest : List Text) (rows : List Grant)
      (ha : a = .read k rows) (hk : s.calls k = some c) (hc : c.stage = .reading orgId rest)
      (hnone : findActiveGrant rows c.use.want c.now = none) (hlog : s'.log = s.log)
      (hcalls : s'.calls = Function.update s.calls k (some { c with stage := .returned false }))
  | moved (k : ℕ) (c : Call) (now : ℤ) (stage : Stage) (hk : s.calls k = some c)
      (hstage : c.stage = .checking [] ∧ stage = .consuming c.orgIds ∨
        (∃ orgId rest, c.stage = .consuming (orgId :: rest) ∧ stage = .reading orgId rest) ∨
        c.stage = .consuming [] ∧ stage = .returned true)
      (hlog : s'.log = s.log)
      (hcalls : s'.calls = Function.update s.calls k (some { c with now := now, stage := stage }))
  | recorded (k : ℕ) (c : Call) (orgId : Text) (grant : Grant) (rest : List Text)
      (ha : a = .record k) (hk : s.calls k = some c) (hc : c.stage = .recording orgId grant rest)
      (hlog : s'.log = s.log ++ [.used ⟨k, orgId, c.use, grant, c.now, s.clock⟩])
      (hcalls : s'.calls = Function.update s.calls k (some { c with stage := .consuming rest }))
  | spent (k : ℕ) (c : Call) (orgId : Text) (grant : Grant) (rest : List Text)
      (ha : a = .record k) (hk : s.calls k = some c) (hc : c.stage = .recording orgId grant rest)
      (hgone : scopeSingleUse c.use.scope = true ∧
        ∀ g ∈ s.grants, g.id = grant.id → g.usedAt.isSome = true)
      (hlog : s'.log = s.log)
      (hcalls : s'.calls = Function.update s.calls k (some { c with stage := .returned false }))

theorem effect_request {admin : Text} {input : RequestInput} {orgId id : Text} {isMember : Bool}
    {deciders : List Text} {now : ℤ} {a : Action}
    (hs : s.request admin input orgId id isMember deciders now = some s') : Effect s a s' := by
  unfold State.request at hs
  split at hs
  · cases hs
    exact .kept rfl rfl
  split at hs
  · cases hs
    exact .noted (.requested id) rfl rfl rfl
  · cases hs

theorem effect_decide (orgId : Text) (d : Decider) (id : Text) (approve : Bool)
    (note : Option Text) (now : ℤ) (a : Action) :
    Effect s a (s.decide orgId d id approve note now) := by
  unfold State.decide
  split
  · exact .kept rfl rfl
  split
  · exact .kept rfl rfl
  · exact .noted _ rfl rfl rfl

theorem effect_revoke (orgId : Text) (d : Decider) (id : Text) (now : ℤ) (a : Action) :
    Effect s a (s.revoke orgId d id now) := by
  unfold State.revoke
  split
  · exact .kept rfl rfl
  split
  · exact .kept rfl rfl
  · exact .noted _ rfl rfl rfl

theorem effect_start {k : ℕ} {use : GrantUse} {orgIds : List Text} {all : Bool} {a : Action}
    (hs : s.start k use orgIds all = some s') : Effect s a s' := by
  unfold State.start at hs
  split at hs
  · cases hs
  rename_i hk
  split at hs
  · cases hs
    exact .started k use orgIds _ hk (Or.inl rfl) rfl rfl
  split at hs
  · cases hs
    exact .started k use orgIds _ hk (Or.inr rfl) rfl rfl
  · cases hs

theorem effect_read {k : ℕ} {rows : List Grant} (hs : s.read k rows = some s') :
    Effect s (.read k rows) s' := by
  unfold State.read at hs
  cases hk : s.calls k with
  | none => rw [hk] at hs; cases hs
  | some c =>
    rw [hk] at hs
    dsimp only at hs
    split at hs
    · rename_i orgId rest hc
      split at hs
      · split at hs
        · cases hs
          exact .checked k c orgId rest _ hk hc (Or.inr rfl) rfl rfl
        · cases hs
          exact .checked k c orgId rest _ hk hc (Or.inl rfl) rfl rfl
      · cases hs
    · rename_i orgId rest hc
      split at hs
      · rename_i hrows
        split at hs
        · rename_i hnone
          cases hs
          exact .missed k c orgId rest rows rfl hk hc hnone rfl rfl
        · rename_i g hfind
          cases hs
          exact .found k c orgId rest rows g hk hc (findActiveGrant_spec hrows hfind).2 rfl rfl
      · cases hs
    · cases hs

theorem effect_goOn {k : ℕ} {a : Action} (hs : s.goOn k = some s') : Effect s a s' := by
  unfold State.goOn at hs
  cases hk : s.calls k with
  | none => rw [hk] at hs; cases hs
  | some c =>
    rw [hk] at hs
    dsimp only at hs
    split at hs
    · rename_i hc
      cases hs
      exact .moved k c c.now _ hk (Or.inl ⟨hc, rfl⟩) rfl rfl
    · rename_i orgId rest hc
      cases hs
      exact .moved k c s.clock _ hk (Or.inr (Or.inl ⟨orgId, rest, hc, rfl⟩)) rfl rfl
    · rename_i hc
      cases hs
      exact .moved k c c.now _ hk (Or.inr (Or.inr ⟨hc, rfl⟩)) rfl rfl
    · cases hs

theorem effect_record {k : ℕ} (hs : s.record k = some s') : Effect s (.record k) s' := by
  unfold State.record at hs
  cases hk : s.calls k with
  | none => rw [hk] at hs; cases hs
  | some c =>
    rw [hk] at hs
    dsimp only at hs
    split at hs
    · rename_i orgId grant rest hc
      split at hs
      · rename_i hsingle
        split at hs
        · cases hs
          exact .recorded k c orgId grant rest rfl hk hc rfl rfl
        · rename_i hgone
          cases hs
          refine .spent k c orgId grant rest rfl hk hc ⟨hsingle, fun g hg hid => ?_⟩ rfl rfl
          by_contra hfree
          apply hgone
          rw [List.any_eq_true]
          refine ⟨g, hg, ?_⟩
          rw [Option.not_isSome_iff_eq_none] at hfree
          simp [hid, hfree]
      · split at hs
        · cases hs
          exact .recorded k c orgId grant rest rfl hk hc rfl rfl
        · cases hs
          exact .recorded k c orgId grant rest rfl hk hc rfl rfl
    · cases hs

theorem effect_step {a : Action} (hs : s.step a = some s') : Effect s a s' := by
  unfold State.step at hs
  cases a with
  | tick t =>
    dsimp only at hs
    split at hs
    · cases hs
      exact .kept rfl rfl
    · cases hs
  | request admin input orgId id isMember deciders now =>
    dsimp only at hs
    split at hs
    · exact effect_request hs
    · cases hs
  | decide orgId d id approve note now =>
    dsimp only at hs
    split at hs
    · cases hs
      exact effect_decide orgId d id approve note now _
    · cases hs
  | revoke orgId d id now =>
    dsimp only at hs
    split at hs
    · cases hs
      exact effect_revoke orgId d id now _
    · cases hs
  | start k use orgIds all => exact effect_start hs
  | read k rows => exact effect_read hs
  | goOn k => exact effect_goOn hs
  | record k => exact effect_record hs

/-- The condition keeps late uses out. -/
theorem noLateUse_step {a : Action} (hinv : Inv s) (h : NoLateUse s.log)
    (hok : s.notOvertaken a = true) (hs : s.step a = some s') : NoLateUse s'.log := by
  have hadd : ∀ e : Entry, e.isUse = false → NoLateUse (s.log ++ [e]) := by
    intro e he
    refine List.pairwise_append.mpr ⟨h, List.pairwise_singleton _ _, fun x _ y hy => ?_⟩
    rw [List.mem_singleton.mp hy]
    rintro r d time rfl
    cases he
  cases effect_step hs with
  | noted e he hlog hcalls =>
    rw [hlog]
    exact hadd e he
  | recorded k c orgId grant rest ha hk hc hlog hcalls =>
    subst ha
    rw [hlog]
    refine List.pairwise_append.mpr ⟨h, List.pairwise_singleton _ _, fun x hx y hy => ?_⟩
    rw [List.mem_singleton.mp hy]
    rintro r d time heq rfl
    cases heq
    obtain ⟨g, hg, hid, hrev⟩ := hinv.revoked _ _ _ hx
    rw [notOvertaken_spec hok hk hc g hg hid] at hrev
    cases hrev
  | kept hlog => rwa [hlog]
  | started _ _ _ _ _ _ hlog => rwa [hlog]
  | checked _ _ _ _ _ _ _ _ hlog => rwa [hlog]
  | found _ _ _ _ _ _ _ _ _ hlog => rwa [hlog]
  | missed _ _ _ _ _ _ _ _ _ hlog => rwa [hlog]
  | moved _ _ _ _ _ _ hlog => rwa [hlog]
  | spent _ _ _ _ _ _ _ _ _ hlog => rwa [hlog]

theorem noLateUse_reached {clock : ℤ}
    (h : ReachedIf (fun s a => s.notOvertaken a = true) (holding [] clock) s) :
    NoLateUse s.log := by
  induction h with
  | start => exact List.Pairwise.nil
  | step hr hok hs ih => exact noLateUse_step (inv_reached hr) ih hok hs

/-- A request to look at the log of an organisation for an hour. -/
def viewRequest : RequestInput where
  scope := .view
  targetUserId := none
  reason := js "look at the log"
  durationMinutes := 60
  emergency := none
  waiting := false

def viewUse : GrantUse where
  scope := .view
  targetUserId := none
  userId := some (js "admin")
  purpose := js "support"

def owner : Decider := ⟨js "owner", true⟩

/-- The grant for the request, approved at once. -/
def viewGrant : Grant :=
  (initialGrant (js "g") (js "org") (js "admin") viewRequest 0).decided owner true none 0

/-- A grant is approved, and a use of it has begun. -/
def begunUse : List Action :=
  [.request (js "admin") viewRequest (js "org") (js "g") false [js "owner"] 0,
    .decide (js "org") owner (js "g") true none 0,
    .start 0 viewUse [js "org"] false, .goOn 0, .read 0 [viewGrant]]

/-- The revocation commits between the reading of the grant and the record of its use. -/
def lateUse : List Action :=
  begunUse ++ [.revoke (js "org") owner (js "g") 0, .record 0]

theorem log_lateUse : ((holding [] 0).runIf (fun _ _ => true) lateUse).map (·.log) =
    some [.requested (js "g"), .decided (js "g") owner true 0, .revoked (js "g") owner 0,
      .used ⟨0, js "org", viewUse, viewGrant, 0, 0⟩] := by
  decide

/-- Once a call has recorded a use, it finds an active grant in each later organisation, and a
single-use grant that it has found is still free when it takes it. -/
def continues (s : State) : Action → Bool
  | .read k rows =>
    match s.calls k with
    | some ⟨_, use, now, .reading _ _⟩ =>
      usesBy s.log k = [] || (findActiveGrant rows use.want now).isSome
    | _ => true
  | .record k =>
    match s.calls k with
    | some ⟨_, use, _, .recording _ grant _⟩ =>
      usesBy s.log k = [] || !scopeSingleUse use.scope ||
        s.grants.any fun g => g.id = grant.id && g.usedAt = none
    | _ => true
  | _ => true

theorem continues_read {k : ℕ} {c : Call} {orgId : Text} {rest : List Text} {rows : List Grant}
    (h : s.continues (.read k rows) = true) (hk : s.calls k = some c)
    (hc : c.stage = .reading orgId rest) (hnone : findActiveGrant rows c.use.want c.now = none) :
    usesBy s.log k = [] := by
  obtain ⟨orgIds, use, now, stage⟩ := c
  cases hc
  unfold continues at h
  dsimp only at h
  rw [hk] at h
  dsimp only at h hnone
  rw [hnone] at h
  simpa using h

theorem continues_record {k : ℕ} {c : Call} {orgId : Text} {grant : Grant} {rest : List Text}
    (h : s.continues (.record k) = true) (hk : s.calls k = some c)
    (hc : c.stage = .recording orgId grant rest) (hsingle : scopeSingleUse c.use.scope = true)
    (hgone : ∀ g ∈ s.grants, g.id = grant.id → g.usedAt.isSome = true) : usesBy s.log k = [] := by
  obtain ⟨orgIds, use, now, stage⟩ := c
  cases hc
  unfold continues at h
  dsimp only at h
  rw [hk] at h
  dsimp only at h hsingle
  rw [Bool.or_eq_true, Bool.or_eq_true, decide_eq_true_eq, hsingle] at h
  rcases h with (h | h) | h
  · exact h
  · cases h
  · obtain ⟨g, hg, hp⟩ := List.any_eq_true.mp h
    rw [Bool.and_eq_true, decide_eq_true_eq, decide_eq_true_eq] at hp
    have := hgone g hg hp.1
    rw [hp.2] at this
    cases this

/-- How far a call has come, by the uses that it has recorded. -/
def Progress (c : Call) (uses : List Recorded) : Prop :=
  (∀ r ∈ uses, r.use = c.use ∧ Matches r.orgId r.use r.now r.grant) ∧
  match c.stage with
  | .checking _ => uses = []
  | .consuming rest => uses.map (·.orgId) ++ rest = c.orgIds
  | .reading orgId rest => uses.map (·.orgId) ++ orgId :: rest = c.orgIds
  | .recording orgId grant rest => uses.map (·.orgId) ++ orgId :: rest = c.orgIds ∧
      Matches orgId c.use c.now grant
  | .returned true => uses.map (·.orgId) = c.orgIds
  | .returned false => uses = []

/-- Each call is on its way, and what has not begun has recorded nothing. -/
def OnTheWay (s : State) : Prop :=
  ∀ k, match s.calls k with
    | none => usesBy s.log k = []
    | some c => Progress c (usesBy s.log k)

theorem OnTheWay.call (h : OnTheWay s) {k : ℕ} {c : Call} (hk : s.calls k = some c) :
    Progress c (usesBy s.log k) := by
  have := h k
  rw [hk] at this
  exact this

/-- A step that changes one call and keeps the chains. -/
theorem OnTheWay.update (h : OnTheWay s) {k : ℕ} {c : Call} (hlog : s'.log = s.log)
    (hcalls : s'.calls = Function.update s.calls k (some c))
    (hc : Progress c (usesBy s.log k)) : OnTheWay s' := by
  intro j
  rw [hlog, hcalls]
  by_cases hj : j = k
  · rw [hj, Function.update_self]
    exact hc
  · rw [Function.update_of_ne hj]
    exact h j

theorem usesBy_used (r : Recorded) (k : ℕ) : usesBy [.used r] k = if r.call = k then [r] else [] := by
  by_cases h : r.call = k <;> simp [usesBy, h]

theorem usesBy_note {e : Entry} (he : e.isUse = false) (log : List Entry) (k : ℕ) :
    usesBy (log ++ [e]) k = usesBy log k := by
  rw [usesBy_append]
  cases e with
  | used r => cases he
  | _ => exact List.append_nil _

theorem onTheWay_step {a : Action} (h : OnTheWay s) (hok : s.continues a = true)
    (hs : s.step a = some s') : OnTheWay s' := by
  cases effect_step hs with
  | kept hlog hcalls =>
    intro k
    rw [hlog, hcalls]
    exact h k
  | noted e he hlog hcalls =>
    intro k
    rw [hlog, hcalls, usesBy_note he]
    exact h k
  | started k use orgIds stage hk hstage hlog hcalls =>
    have hnone := h k
    rw [hk] at hnone
    refine h.update hlog hcalls ⟨?_, ?_⟩
    · rw [show usesBy s.log k = [] from hnone]
      exact fun r hr => absurd hr List.not_mem_nil
    · rcases hstage with rfl | rfl
      · exact hnone
      · rw [show usesBy s.log k = [] from hnone]
        rfl
  | checked k c orgId rest stage hk hc hstage hlog hcalls =>
    obtain ⟨huses, hstill⟩ := h.call hk
    rw [hc] at hstill
    refine h.update hlog hcalls ⟨huses, ?_⟩
    rcases hstage with rfl | rfl <;> exact hstill
  | found k c orgId rest rows grant hk hc hmatch hlog hcalls =>
    obtain ⟨huses, hstill⟩ := h.call hk
    rw [hc] at hstill
    exact h.update hlog hcalls ⟨huses, hstill, hmatch⟩
  | missed k c orgId rest rows ha hk hc hnone hlog hcalls =>
    subst ha
    exact h.update hlog hcalls ⟨(h.call hk).1, continues_read hok hk hc hnone⟩
  | moved k c now stage hk hstage hlog hcalls =>
    obtain ⟨huses, hstill⟩ := h.call hk
    refine h.update hlog hcalls ⟨huses, ?_⟩
    rcases hstage with ⟨hc, rfl⟩ | ⟨orgId, rest, hc, rfl⟩ | ⟨hc, rfl⟩
    · rw [hc] at hstill
      rw [show usesBy s.log k = [] from hstill]
      rfl
    · rw [hc] at hstill
      exact hstill
    · rw [hc] at hstill
      exact (List.append_nil _).symm.trans hstill
  | recorded k c orgId grant rest ha hk hc hlog hcalls =>
    obtain ⟨huses, hstill⟩ := h.call hk
    rw [hc] at hstill
    intro j
    rw [hlog, hcalls, usesBy_append, usesBy_used]
    by_cases hj : j = k
    · rw [hj, Function.update_self, if_pos rfl]
      refine ⟨fun r hr => ?_, ?_⟩
      · rcases List.mem_append.mp hr with hr | hr
        · exact huses r hr
        · rw [List.mem_singleton.mp hr]
          exact ⟨rfl, hstill.2⟩
      · rw [← hstill.1]
        simp
    · rw [Function.update_of_ne hj, if_neg fun heq => hj heq.symm, List.append_nil]
      exact h j
  | spent k c orgId grant rest ha hk hc hgone hlog hcalls =>
    subst ha
    exact h.update hlog hcalls ⟨(h.call hk).1, continues_record hok hk hc hgone.1 hgone.2⟩

theorem onTheWay_reached {grants : List Grant} {clock : ℤ}
    (h : ReachedIf (fun s a => s.continues a = true) (holding grants clock) s) : OnTheWay s := by
  induction h with
  | start => exact fun _ => rfl
  | step _ hok hs ih => exact onTheWay_step ih hok hs

/-- A request to reset the access of a person in an organisation. -/
def resetRequest : RequestInput where
  scope := .resetAccess
  targetUserId := some (js "person")
  reason := js "all keys are lost"
  durationMinutes := 60
  emergency := none
  waiting := false

def resetUse : GrantUse where
  scope := .resetAccess
  targetUserId := some (js "person")
  userId := some (js "admin")
  purpose := js "reset"

/-- The approved grants of two organisations. -/
def resetGrant (orgId : String) : Grant :=
  (initialGrant (js orgId) (js orgId) (js "admin") resetRequest 0).decided owner true none 0

def resetGrants : List Grant := [resetGrant "a", resetGrant "b"]

/-- Both organisations are checked, and the use is recorded in the first one. -/
def resetBegun : List Action :=
  [.start 0 resetUse [js "a", js "b"] true, .read 0 [resetGrant "a"], .read 0 [resetGrant "b"],
    .goOn 0, .goOn 0, .read 0 [resetGrant "a"], .record 0, .goOn 0]

/-- The second organisation revokes its grant in between. -/
def resetBroken : List Action :=
  resetBegun ++ [.revoke (js "b") owner (js "b") 0, .read 0 [(resetGrant "b").revoke owner 0]]

/-- What a run leaves of a call: what it has returned, and its uses. -/
def outcome (s : State) (k : ℕ) : Option Bool × List Recorded :=
  (match s.calls k with
    | some ⟨_, _, _, .returned answer⟩ => some answer
    | _ => none, usesBy s.log k)

theorem outcome_returned {k : ℕ} {answer : Bool} (h : (s.outcome k).1 = some answer) :
    ∃ c, s.calls k = some c ∧ c.stage = .returned answer := by
  unfold outcome at h
  dsimp only at h
  split at h
  · rename_i hk
    cases h
    exact ⟨_, hk, rfl⟩
  · cases h

end Klick.Lockbox.State
