-- The grants of all organisations with everyone who requests, decides, revokes
-- and uses them, their transactions in any order (`platform-access/service.ts`).
import Klick.Lockbox

open Js

namespace Klick.Lockbox

/-! ## Uses -/

/-- `GrantUse` without its organisation and the address of the request. -/
structure GrantUse where
  scope : PlatformAccessScope
  targetUserId : Option Text
  userId : Option Text
  purpose : Text
deriving DecidableEq

/-- A grant is looked for by the one who uses it; nobody has the empty id. -/
def GrantUse.want (use : GrantUse) : Want where
  scope := use.scope
  targetUserId := use.targetUserId
  requestedBy := some (use.userId.getD [])

/-- A use in the chain of its organisation: by which call, of which grant as the call read it,
when the call began to look for it, and when it is recorded. -/
structure Recorded where
  call : ℕ
  orgId : Text
  use : GrantUse
  grant : Grant
  now : ℤ
  recordedAt : ℤ
deriving DecidableEq

/-- What committed transactions leave in the chains, in their order. -/
inductive Entry
  | requested (grant : Text)
  | decided (grant : Text) (d : Decider) (approve : Bool) (time : ℤ)
  | revoked (grant : Text) (d : Decider) (time : ℤ)
  | used (r : Recorded)
deriving DecidableEq

def Entry.isUse : Entry → Bool
  | .used _ => true
  | _ => false

/-- How far a call has come. `consumeGrantsForAll` checks its organisations and then consumes
a grant in each; `consumeGrant` consumes in one. -/
inductive Stage
  | checking (rest : List Text)
  | consuming (rest : List Text)
  | reading (orgId : Text) (rest : List Text)
  | recording (orgId : Text) (grant : Grant) (rest : List Text)
  | returned (answer : Bool)

structure Call where
  orgIds : List Text
  use : GrantUse
  now : ℤ
  stage : Stage

/-- The clock, the table, the chains, and the calls. -/
structure State where
  clock : ℤ
  grants : List Grant
  log : List Entry
  calls : ℕ → Option Call

namespace State

/-- A table that nobody has used yet. -/
def holding (grants : List Grant) (clock : ℤ) : State := ⟨clock, grants, [], fun _ => none⟩

/-- `update platform_access_grants set … where id = grantId and …` -/
def update (s : State) (p : Grant → Bool) (f : Grant → Grant) : State :=
  { s with grants := s.grants.map fun g => if p g then f g else g }

def write (s : State) (e : Entry) : State := { s with log := s.log ++ [e] }

def setCall (s : State) (k : ℕ) (c : Call) : State :=
  { s with calls := Function.update s.calls k (some c) }

/-- `lockedGrant` -/
def lockedGrant (s : State) (orgId id : Text) : Option Grant :=
  s.grants.find? fun g => g.id = id && g.organizationId = orgId

/-- The id of a new row is a new UUID. -/
def request (s : State) (admin : Text) (input : RequestInput) (orgId id : Text) (isMember : Bool)
    (deciders : List Text) (now : ℤ) : Option State :=
  match requestPlatformAccess admin input orgId id isMember deciders now with
  | .error _ => some s
  | .ok g =>
    if s.grants.all fun h => h.id ≠ id then
      some ({ s with grants := s.grants ++ [g] }.write (.requested id))
    else none

def decide (s : State) (orgId : Text) (d : Decider) (id : Text) (approve : Bool)
    (note : Option Text) (now : ℤ) : State :=
  match s.lockedGrant orgId id with
  | none => s
  | some g =>
    if (canDecide g d now).isSome then s
    else (s.update (·.id = g.id) fun h => h.decided d approve note now).write
      (.decided g.id d approve now)

def revoke (s : State) (orgId : Text) (d : Decider) (id : Text) (now : ℤ) : State :=
  match s.lockedGrant orgId id with
  | none => s
  | some g =>
    if (canRevoke g d (g.targetUserId = some d.userId) now).isSome then s
    else (s.update (·.id = g.id) fun h => h.revoke d now).write (.revoked g.id d now)

/-- What `grantsForOrg` may answer: the order of equal times is open. -/
def answers (s : State) (orgId : Text) (rows : List Grant) : Bool :=
  rows.isPerm (s.grants.filter (·.organizationId = orgId)) &&
    rows.Pairwise (fun g h => h.requestedAt ≤ g.requestedAt)

/-- `consumeGrant`, or `consumeGrantsForAll` where `all` holds. -/
def start (s : State) (k : ℕ) (use : GrantUse) (orgIds : List Text) (all : Bool) :
    Option State :=
  match s.calls k with
  | some _ => none
  | none =>
    if all then some (s.setCall k ⟨orgIds, use, s.clock, .checking orgIds⟩)
    else if orgIds.length = 1 then some (s.setCall k ⟨orgIds, use, s.clock, .consuming orgIds⟩)
    else none

/-- The next grants are read: by the check of an organisation, or by `consumeGrant`. -/
def read (s : State) (k : ℕ) (rows : List Grant) : Option State :=
  match s.calls k with
  | none => none
  | some c =>
    match c.stage with
    | .checking (orgId :: rest) =>
      if s.answers orgId rows then
        match findActiveGrant rows c.use.want c.now with
        | none => some (s.setCall k { c with stage := .returned false })
        | some _ => some (s.setCall k { c with stage := .checking rest })
      else none
    | .reading orgId rest =>
      if s.answers orgId rows then
        match findActiveGrant rows c.use.want c.now with
        | none => some (s.setCall k { c with stage := .returned false })
        | some g => some (s.setCall k { c with stage := .recording orgId g rest })
      else none
    | _ => none

/-- What a call does by itself: the next `consumeGrant` begins, or the call returns. -/
def goOn (s : State) (k : ℕ) : Option State :=
  match s.calls k with
  | none => none
  | some c =>
    match c.stage with
    | .checking [] => some (s.setCall k { c with stage := .consuming c.orgIds })
    | .consuming (orgId :: rest) =>
      some (s.setCall k { c with now := s.clock, stage := .reading orgId rest })
    | .consuming [] => some (s.setCall k { c with stage := .returned true })
    | _ => none

/-- The second transaction of `consumeGrant`. -/
def record (s : State) (k : ℕ) : Option State :=
  match s.calls k with
  | none => none
  | some c =>
    match c.stage with
    | .recording orgId grant rest =>
      let entry := .used ⟨k, orgId, c.use, grant, c.now, s.clock⟩
      let done : Call := { c with stage := .consuming rest }
      if scopeSingleUse c.use.scope then
        let free : Grant → Bool := fun g => g.id = grant.id && g.usedAt = none
        if s.grants.any free then
          some (((s.update free (·.spend c.now)).write entry).setCall k done)
        else some (s.setCall k { c with stage := .returned false })
      else if grant.usedAt = none then
        some (((s.update (·.id = grant.id) (·.spend c.now)).write entry).setCall k done)
      else some ((s.write entry).setCall k done)
    | _ => none

/-- What happens next, in any order. Each transaction takes its time before it commits. -/
inductive Action
  | tick (t : ℤ)
  | request (admin : Text) (input : RequestInput) (orgId id : Text) (isMember : Bool)
      (deciders : List Text) (now : ℤ)
  | decide (orgId : Text) (d : Decider) (id : Text) (approve : Bool) (note : Option Text) (now : ℤ)
  | revoke (orgId : Text) (d : Decider) (id : Text) (now : ℤ)
  | start (k : ℕ) (use : GrantUse) (orgIds : List Text) (all : Bool)
  | read (k : ℕ) (rows : List Grant)
  | goOn (k : ℕ)
  | record (k : ℕ)

/-- One action; none where it cannot happen now. -/
def step (s : State) : Action → Option State
  | .tick t => if s.clock ≤ t then some { s with clock := t } else none
  | .request admin input orgId id isMember deciders now =>
    if now ≤ s.clock then s.request admin input orgId id isMember deciders now else none
  | .decide orgId d id approve note now =>
    if now ≤ s.clock then some (s.decide orgId d id approve note now) else none
  | .revoke orgId d id now => if now ≤ s.clock then some (s.revoke orgId d id now) else none
  | .start k use orgIds all => s.start k use orgIds all
  | .read k rows => s.read k rows
  | .goOn k => s.goOn k
  | .record k => s.record k

/-- The states that actions lead to, each of which happens under a condition on the state. -/
inductive ReachedIf (ok : State → Action → Prop) (start : State) : State → Prop
  | start : ReachedIf ok start start
  | step {s s' : State} {a : Action} : ReachedIf ok start s → ok s a → s.step a = some s' →
      ReachedIf ok start s'

/-! ## What is recorded -/

/-- How a grant comes to be active, from when on and until when. -/
inductive Granted (log : List Entry) (g : Grant) : ℤ → ℤ → Prop
  | approved (d : Decider) (time : ℤ) : .decided g.id d true time ∈ log → d.mayDecide = true →
      some d.userId ≠ g.requestedBy →
      (scopeNeedsTarget g.scope = true → some d.userId ≠ g.targetUserId) →
      Granted log g time (time + g.durationMinutes * minute)
  | emergency (stop : ℤ) : g.emergencyCategory.isSome = true → g.scope ≠ .resetAccess →
      stop ≤ g.requestedAt + 4 * hour → Granted log g g.requestedAt stop
  | waiting (stop : ℤ) : g.applyAfter = some (g.requestedAt + 24 * hour) →
      Granted log g (g.requestedAt + 24 * hour) stop

/-- A use of a grant from its call at `now` to its record at `recordedAt` is one of its requester, for its
scope and person, and it falls into the active time of the grant. -/
structure Covered (log : List Entry) (orgId : Text) (use : GrantUse) (now recordedAt : ℤ) (g : Grant) :
    Prop where
  org : g.organizationId = orgId
  scope : g.scope = use.scope
  target : scopeNeedsTarget use.scope = true → g.targetUserId = use.targetUserId
  requester : g.requestedBy = some (use.userId.getD [])
  active : ∃ start stop t, Granted log g start stop ∧ g.expiresAt = some stop ∧
    now ≤ t ∧ t ≤ recordedAt ∧ start ≤ t ∧ t < stop

/-- The uses of a grant. -/
def usesOf (log : List Entry) (id : Text) : List Recorded :=
  log.filterMap fun
    | .used r => if r.grant.id = id then some r else none
    | _ => none

/-- The uses that a call has recorded. -/
def usesBy (log : List Entry) (k : ℕ) : List Recorded :=
  log.filterMap fun
    | .used r => if r.call = k then some r else none
    | _ => none

/-! ## Rows -/

/-- What a row keeps in every step. -/
structure Kept (g g' : Grant) : Prop where
  id : g'.id = g.id
  org : g'.organizationId = g.organizationId
  scope : g'.scope = g.scope
  target : g'.targetUserId = g.targetUserId
  requester : g'.requestedBy = g.requestedBy
  requestedAt : g'.requestedAt = g.requestedAt
  duration : g'.durationMinutes = g.durationMinutes
  emergency : g'.emergencyCategory = g.emergencyCategory
  applyAfter : g'.applyAfter = g.applyAfter
  settled : g.status ≠ .requested → g'.status ≠ .requested ∧ g'.expiresAt = g.expiresAt
  revoked : g.revokedAt.isSome = true → g'.revokedAt.isSome = true

theorem Kept.refl (g : Grant) : Kept g g :=
  ⟨rfl, rfl, rfl, rfl, rfl, rfl, rfl, rfl, rfl, fun h => ⟨h, rfl⟩, fun h => h⟩

variable {log log' : List Entry} {g g' : Grant} {s s' : State}

theorem Granted.kept {start stop : ℤ} (h : Granted log g start stop) (hk : Kept g g')
    (hl : ∀ e ∈ log, e ∈ log') : Granted log' g' start stop := by
  cases h with
  | approved d _ hd hmay hself htarget =>
    rw [← hk.duration]
    refine .approved d _ ?_ hmay ?_ fun hs => ?_
    · rw [hk.id]
      exact hl _ hd
    · rw [hk.requester]
      exact hself
    · rw [hk.target]
      exact htarget (hk.scope ▸ hs)
  | emergency stop hc hs hstop =>
    rw [← hk.requestedAt]
    refine .emergency stop ?_ ?_ ?_
    · rw [hk.emergency]
      exact hc
    · rw [hk.scope]
      exact hs
    · rw [hk.requestedAt]
      exact hstop
  | waiting stop ha =>
    rw [← hk.requestedAt]
    apply Granted.waiting
    rw [hk.applyAfter, hk.requestedAt]
    exact ha

theorem Covered.kept {orgId : Text} {use : GrantUse} {now time time' : ℤ}
    (h : Covered log orgId use now time g) (hset : g.status ≠ .requested) (hk : Kept g g')
    (hl : ∀ e ∈ log, e ∈ log') (htime : time ≤ time') : Covered log' orgId use now time' g' where
  org := hk.org.trans h.org
  scope := hk.scope.trans h.scope
  target hs := hk.target.trans (h.target hs)
  requester := hk.requester.trans h.requester
  active := by
    obtain ⟨start, stop, t, hg, hstop, h1, h2, h3, h4⟩ := h.active
    exact ⟨start, stop, t, hg.kept hk hl, (hk.settled hset).2.trans hstop, h1, h2.trans htime, h3, h4⟩

/-- What holds of every row. -/
structure RowInv (log : List Entry) (clock : ℤ) (g : Grant) : Prop where
  duration : 0 < g.durationMinutes
  target : scopeNeedsTarget g.scope = true → given g.targetUserId = true
  open_ : g.status = .requested → g.expiresAt = none
  granted : ∀ stop, g.expiresAt = some stop → ∃ start, Granted log g start stop ∧ start < stop ∧
    (start ≤ clock ∨ g.applyAfter = some start ∧ (g.status = .waiting ∨ g.status = .revoked))

theorem RowInv.mono {clock clock' : ℤ} (h : RowInv log clock g) (hl : ∀ e ∈ log, e ∈ log')
    (hc : clock ≤ clock') : RowInv log' clock' g where
  duration := h.duration
  target := h.target
  open_ := h.open_
  granted stop hstop := by
    obtain ⟨start, hg, hlt, hwhen⟩ := h.granted stop hstop
    exact ⟨start, hg.kept (Kept.refl g) hl, hlt, hwhen.imp_left fun h => h.trans hc⟩

theorem active_spec {now : ℤ} (h : grantActive g now = true) :
    g.revokedAt = none ∧ g.status ≠ .requested ∧ g.status ≠ .revoked ∧
      (g.status = .waiting → ∀ t, g.applyAfter = some t → t ≤ now) ∧
      ∃ stop, g.expiresAt = some stop ∧ now < stop := by
  unfold grantActive at h
  rw [decide_eq_true_eq] at h
  unfold grantState at h
  split at h
  · cases h
  rename_i hrev
  split at h
  · cases h
  split at h
  · cases h
  split at h
  · split at h <;> cases h
  rename_i hreq
  split at h
  · cases h
  rename_i hwait
  split at h
  · cases h
  rename_i hexp
  rw [Bool.or_eq_true, not_or, Bool.not_eq_true, Option.isSome_eq_false_iff,
    Option.isNone_iff_eq_none, decide_eq_true_eq] at hrev
  refine ⟨hrev.1, hreq, hrev.2, fun hw t ht => ?_, ?_⟩
  · rw [hw, ht] at hwait
    simpa using hwait
  · cases hstop : g.expiresAt with
    | none => simp [hstop] at hexp
    | some stop => exact ⟨stop, rfl, by simpa [hstop] using hexp⟩

theorem requested_spec {now : ℤ} (h : grantState g now = .requested) :
    g.status = .requested ∧ g.revokedAt = none := by
  unfold grantState at h
  split at h
  · cases h
  rename_i hrev
  split at h
  · cases h
  split at h
  · cases h
  split at h
  · rename_i hreq
    rw [Bool.or_eq_true, not_or, Bool.not_eq_true, Option.isSome_eq_false_iff,
      Option.isNone_iff_eq_none] at hrev
    exact ⟨hreq, hrev.1⟩
  split at h
  · cases h
  split at h <;> cases h

/-- A grant that `findActiveGrant` finds in an organisation for a use. -/
structure Matches (orgId : Text) (use : GrantUse) (now : ℤ) (g : Grant) : Prop where
  org : g.organizationId = orgId
  scope : g.scope = use.scope
  target : scopeNeedsTarget use.scope = true → g.targetUserId = use.targetUserId
  requester : g.requestedBy = some (use.userId.getD [])
  free : scopeSingleUse use.scope = true → g.usedAt = none
  active : grantActive g now = true

theorem answers_mem {orgId : Text} {rows : List Grant} (h : s.answers orgId rows = true)
    (hg : g ∈ rows) : g ∈ s.grants ∧ g.organizationId = orgId := by
  unfold answers at h
  rw [Bool.and_eq_true] at h
  have hp := List.isPerm_iff.mp h.1
  have hm := List.mem_filter.mp (hp.mem_iff.mp hg)
  exact ⟨hm.1, of_decide_eq_true hm.2⟩

theorem findActiveGrant_spec {orgId : Text} {use : GrantUse} {rows : List Grant} {now : ℤ}
    (hrows : s.answers orgId rows = true) (h : findActiveGrant rows use.want now = some g) :
    g ∈ s.grants ∧ Matches orgId use now g := by
  have hp := List.find?_some h
  have hm := answers_mem hrows (List.mem_of_find?_eq_some h)
  simp only [GrantUse.want, Bool.and_eq_true, decide_eq_true_eq, Bool.or_eq_true,
    Bool.not_eq_eq_eq_not, Bool.not_true, Bool.and_eq_false_imp, Option.isSome_eq_false_iff,
    Option.isNone_iff_eq_none, reduceCtorEq, false_or] at hp
  obtain ⟨⟨⟨⟨hscope, htarget⟩, hreq⟩, hfree⟩, hactive⟩ := hp
  refine ⟨hm.1, hm.2, of_decide_eq_true hscope, fun hn => ?_, of_decide_eq_true hreq, hfree, hactive⟩
  rcases htarget with ht | ht
  · rw [ht] at hn
    cases hn
  · exact of_decide_eq_true ht

/-- A grant that is active for a use covers it. -/
theorem Matches.covered {orgId : Text} {use : GrantUse} {now clock : ℤ}
    (h : Matches orgId use now g) (hrow : RowInv log clock g) (hnow : now ≤ clock) :
    Covered log orgId use now clock g where
  org := h.org
  scope := h.scope
  target := h.target
  requester := h.requester
  active := by
    obtain ⟨-, -, hstatus, hwait, stop, hstop, hlt⟩ := active_spec h.active
    obtain ⟨start, hg, hss, hwhen⟩ := hrow.granted stop hstop
    rcases hwhen with hle | ⟨happly, hw | hw⟩
    · refine ⟨start, stop, max now start, hg, hstop, le_max_left _ _, max_le hnow hle,
        le_max_right _ _, max_lt hlt hss⟩
    · exact ⟨start, stop, now, hg, hstop, le_rfl, hnow, hwait hw start happly, hlt⟩
    · exact absurd hw hstatus

/-! ## What the steps keep -/

/-- What grows in every step. -/
structure Grows (s s' : State) : Prop where
  clock : s.clock ≤ s'.clock
  log : ∀ e ∈ s.log, e ∈ s'.log
  rows : ∀ g ∈ s.grants, ∃ g' ∈ s'.grants, Kept g g'

structure Inv (s : State) : Prop where
  ids : (s.grants.map (·.id)).Nodup
  rows : ∀ g ∈ s.grants, RowInv s.log s.clock g
  calls : ∀ k c, s.calls k = some c → c.now ≤ s.clock
  revoked : ∀ id d time, .revoked id d time ∈ s.log →
    ∃ g ∈ s.grants, g.id = id ∧ g.revokedAt.isSome = true
  recording : ∀ k c orgId grant rest, s.calls k = some c → c.stage = .recording orgId grant rest →
    ∃ g ∈ s.grants, g.id = grant.id ∧ g.status ≠ .requested ∧
      Covered s.log orgId c.use c.now s.clock g
  used : ∀ r, .used r ∈ s.log → ∃ g ∈ s.grants, g.id = r.grant.id ∧ g.status ≠ .requested ∧
    Covered s.log r.orgId r.use r.now r.recordedAt g
  once : ∀ g ∈ s.grants, scopeSingleUse g.scope = true →
    (usesOf s.log g.id).length ≤ if g.usedAt.isSome then 1 else 0

theorem inv_holding (clock : ℤ) : Inv (holding [] clock) := by
  refine ⟨List.nodup_nil, ?_, ?_, ?_, ?_, ?_, ?_⟩
  · exact fun g hg => absurd hg List.not_mem_nil
  · exact fun k c hc => nomatch hc
  · exact fun id d time h => absurd h List.not_mem_nil
  · exact fun k c orgId grant rest hc => nomatch hc
  · exact fun r h => absurd h List.not_mem_nil
  · exact fun g hg => absurd hg List.not_mem_nil

/-- What a covered row stays. -/
theorem Grows.covers (h : Grows s s') {id orgId : Text} {use : GrantUse} {now time time' : ℤ}
    (hg : ∃ g ∈ s.grants, g.id = id ∧ g.status ≠ .requested ∧ Covered s.log orgId use now time g)
    (htime : time ≤ time') :
    ∃ g ∈ s'.grants, g.id = id ∧ g.status ≠ .requested ∧ Covered s'.log orgId use now time' g := by
  obtain ⟨g, hg, hid, hset, hcov⟩ := hg
  obtain ⟨g', hg', hk⟩ := h.rows g hg
  exact ⟨g', hg', hk.id.trans hid, (hk.settled hset).1, hcov.kept hset hk h.log htime⟩

theorem usesOf_append (log : List Entry) (e : Entry) (id : Text) :
    usesOf (log ++ [e]) id = usesOf log id ++ usesOf [e] id :=
  List.filterMap_append

theorem usesBy_append (log : List Entry) (e : Entry) (k : ℕ) :
    usesBy (log ++ [e]) k = usesBy log k ++ usesBy [e] k :=
  List.filterMap_append

theorem mem_update {p : Grant → Bool} {f : Grant → Grant} (h : g' ∈ (s.update p f).grants) :
    ∃ g ∈ s.grants, g' = if p g then f g else g := by
  obtain ⟨g, hg, heq⟩ := List.mem_map.mp h
  exact ⟨g, hg, heq.symm⟩

theorem ids_update {p : Grant → Bool} {f : Grant → Grant} (hid : ∀ g, (f g).id = g.id) :
    (s.update p f).grants.map (·.id) = s.grants.map (·.id) := by
  unfold update
  rw [List.map_map]
  apply List.map_congr_left
  intro g _
  simp only [Function.comp_apply]
  split
  · exact hid g
  · rfl

/-- An update of one row with an entry that is no use. -/
theorem Inv.updated {p : Grant → Bool} {f : Grant → Grant} {e : Entry} (h : Inv s)
    (hkept : ∀ g ∈ s.grants, p g = true → Kept g (f g)) (hid : ∀ g, (f g).id = g.id)
    (hrow : ∀ g ∈ s.grants, p g = true → RowInv (s.log ++ [e]) s.clock (f g))
    (hused : ∀ g, (f g).usedAt = g.usedAt) (he : ∀ r, e ≠ .used r)
    (hrev : ∀ id d time, e = .revoked id d time →
      ∃ g ∈ s.grants, p g = true ∧ g.id = id ∧ (f g).revokedAt.isSome = true) :
    Inv ((s.update p f).write e) := by
  have hgrows : Grows s ((s.update p f).write e) := by
    refine ⟨le_rfl, fun x hx => List.mem_append_left _ hx, fun g hg => ?_⟩
    refine ⟨if p g then f g else g, List.mem_map_of_mem hg, ?_⟩
    split
    · exact hkept g hg ‹_›
    · exact Kept.refl g
  refine ⟨?_, ?_, h.calls, ?_, ?_, ?_, ?_⟩
  · change ((s.update p f).grants.map (·.id)).Nodup
    rw [ids_update hid]
    exact h.ids
  · intro g' hg'
    obtain ⟨g, hg, rfl⟩ := mem_update hg'
    split
    · exact hrow g hg ‹_›
    · exact (h.rows g hg).mono hgrows.log le_rfl
  · intro id d time hmem
    rcases List.mem_append.mp hmem with hmem | hmem
    · obtain ⟨g, hg, hgid, hgrev⟩ := h.revoked id d time hmem
      obtain ⟨g', hg', hk⟩ := hgrows.rows g hg
      exact ⟨g', hg', hk.id.trans hgid, hk.revoked hgrev⟩
    · obtain ⟨g, hg, hp, hgid, hgrev⟩ := hrev id d time (List.mem_singleton.mp hmem).symm
      refine ⟨f g, ?_, (hid g).trans hgid, hgrev⟩
      exact List.mem_map.mpr ⟨g, hg, if_pos hp⟩
  · exact fun k c orgId grant rest hc hst =>
      hgrows.covers (h.recording k c orgId grant rest hc hst) le_rfl
  · intro r hr
    rcases List.mem_append.mp hr with hr | hr
    · exact hgrows.covers (h.used r hr) le_rfl
    · exact absurd (List.mem_singleton.mp hr).symm (he r)
  · intro g' hg' hsingle
    have huses : ∀ id, usesOf ((s.update p f).write e).log id = usesOf s.log id := by
      intro id
      change usesOf (s.log ++ [e]) id = _
      rw [usesOf_append]
      cases e with
      | used r => exact absurd rfl (he r)
      | _ => exact List.append_nil _
    rw [huses]
    obtain ⟨g, hg, rfl⟩ := mem_update hg'
    split at hsingle
    · rename_i hp
      rw [if_pos hp, hid, hused]
      exact h.once g hg ((hkept g hg hp).scope ▸ hsingle)
    · rename_i hp
      rw [if_neg hp]
      exact h.once g hg hsingle

theorem lockedGrant_spec {orgId id : Text} (h : s.lockedGrant orgId id = some g) :
    g ∈ s.grants ∧ g.id = id := by
  have hp := List.find?_some h
  rw [Bool.and_eq_true, decide_eq_true_eq] at hp
  exact ⟨List.mem_of_find?_eq_some h, hp.1⟩

theorem Inv.eq_of_id (h : Inv s) (hg : g ∈ s.grants) (hg' : g' ∈ s.grants) (hid : g.id = g'.id) :
    g = g' :=
  List.inj_on_of_nodup_map h.ids hg hg' hid

theorem canDecide_spec {d : Decider} {now : ℤ} (h : canDecide g d now = none) :
    grantState g now = .requested ∧ d.mayDecide = true ∧ some d.userId ≠ g.requestedBy ∧
      (given g.targetUserId = true → some d.userId ≠ g.targetUserId) := by
  unfold canDecide at h
  split at h
  · cases h
  rename_i hst
  split at h
  · cases h
  rename_i hmay
  split at h
  · cases h
  rename_i hself
  split at h
  · cases h
  rename_i htarget
  refine ⟨not_not.mp hst, by simpa using hmay, hself, fun hg heq => htarget ?_⟩
  rw [hg, heq]
  simp

theorem inv_decide (h : Inv s) (orgId : Text) (d : Decider) (id : Text) (approve : Bool)
    (note : Option Text) {now : ℤ} (hnow : now ≤ s.clock) :
    Inv (s.decide orgId d id approve note now) := by
  unfold State.decide
  cases hl : s.lockedGrant orgId id with
  | none => exact h
  | some g =>
    dsimp only
    split
    · exact h
    rename_i hcan
    obtain ⟨hstate, hmay, hself, htarget⟩ :=
      canDecide_spec (Option.not_isSome_iff_eq_none.mp hcan)
    obtain ⟨hg, -⟩ := lockedGrant_spec hl
    have hreq := (requested_spec hstate).1
    have hone : ∀ x ∈ s.grants, Decidable.decide (x.id = g.id) = true → x = g := fun x hx hp =>
      h.eq_of_id hx hg (of_decide_eq_true hp)
    have hrow := h.rows g hg
    apply h.updated
    · intro x hx hp
      cases hone x hx hp
      exact ⟨rfl, rfl, rfl, rfl, rfl, rfl, rfl, rfl, rfl, fun hn => absurd hreq hn, fun hr => hr⟩
    · exact fun _ => rfl
    · intro x hx hp
      cases hone x hx hp
      refine ⟨hrow.duration, hrow.target, fun hn => ?_, fun stop hstop => ?_⟩
      · cases approve <;> cases hn
      · cases approve with
        | false => cases hstop
        | true =>
          cases hstop
          refine ⟨now, ?_, ?_, Or.inl hnow⟩
          · apply Granted.approved d now
            · exact List.mem_append_right _ (List.mem_singleton.mpr rfl)
            · exact hmay
            · exact hself
            · exact fun hs => htarget (hrow.target hs)
          · have := hrow.duration
            unfold approvedExpiry minute
            omega
    · exact fun _ => rfl
    · exact fun _ => nofun
    · exact fun _ _ _ => nofun

theorem inv_revoke (h : Inv s) (orgId : Text) (d : Decider) (id : Text) (now : ℤ) :
    Inv (s.revoke orgId d id now) := by
  unfold State.revoke
  cases hl : s.lockedGrant orgId id with
  | none => exact h
  | some g =>
    dsimp only
    split
    · exact h
    obtain ⟨hg, -⟩ := lockedGrant_spec hl
    have hstatus : ∀ x : Grant, (x.revoke d now).status ≠ .requested := by
      intro x
      unfold Grant.revoke
      dsimp only
      split <;> nofun
    have hkept : ∀ x : Grant, Kept x (x.revoke d now) := fun x =>
      ⟨rfl, rfl, rfl, rfl, rfl, rfl, rfl, rfl, rfl, fun _ => ⟨hstatus x, rfl⟩, fun _ => rfl⟩
    apply h.updated
    · exact fun x _ _ => hkept x
    · exact fun _ => rfl
    · intro x hx _
      have hrow := h.rows x hx
      refine ⟨hrow.duration, hrow.target, fun hn => absurd hn (hstatus x), fun stop hstop => ?_⟩
      obtain ⟨start, hgr, hlt, hwhen⟩ := hrow.granted stop hstop
      refine ⟨start, hgr.kept (hkept x) fun e he => List.mem_append_left _ he, hlt, ?_⟩
      refine hwhen.imp_right fun ⟨happly, hw⟩ => ⟨happly, Or.inr ?_⟩
      -- a grant with an end is no longer requested, so it becomes `revoked`
      change (if x.status = .requested then PlatformAccessStatus.cancelled else .revoked) = .revoked
      rcases hw with hw | hw <;> rw [hw] <;> rfl
    · exact fun _ => rfl
    · exact fun _ => nofun
    · intro id' d' time heq
      cases heq
      exact ⟨g, hg, decide_eq_true rfl, rfl, rfl⟩

theorem initialGrant_spec {id orgId admin : Text} {input : RequestInput} {now clock : ℤ}
    (hvalid : validateRequest input = none) (hnow : now ≤ clock) (log : List Entry) :
    RowInv log clock (initialGrant id orgId admin input now) := by
  unfold validateRequest at hvalid
  dsimp only at hvalid
  split at hvalid
  · cases hvalid
  rename_i htarget
  split at hvalid
  · cases hvalid
  split at hvalid
  · cases hvalid
  split at hvalid
  · cases hvalid
  rename_i hdur
  split at hvalid
  · cases hvalid
  split at hvalid
  · cases hvalid
  rename_i hscope
  have hmin : 15 ≤ input.durationMinutes.num := by
    simp only [Bool.or_eq_true, Bool.not_eq_eq_eq_not, Bool.not_true, decide_eq_true_eq, not_or,
      Bool.not_eq_false, not_lt] at hdur
    obtain ⟨⟨hint, hle⟩, -⟩ := hdur
    have hden : input.durationMinutes.den = 1 := by simpa [Rat.isInt] using hint
    have heq := Rat.coe_int_num_of_den_eq_one hden
    rw [← heq] at hle
    unfold minDurationMin at hle
    exact_mod_cast hle
  have hgiven : scopeNeedsTarget input.scope = true → given input.targetUserId = true := by
    intro hn
    simpa [hn] using htarget
  unfold initialGrant
  cases hem : input.emergency with
  | some category =>
    refine ⟨by dsimp only; omega, hgiven, nofun, fun stop hstop => ?_⟩
    cases hstop
    refine ⟨now, ?_, ?_, Or.inl hnow⟩
    · apply Granted.emergency
      · rfl
      · dsimp only
        simpa [hem] using hscope
      · dsimp only [emergencyMaxMin, minute, hour]
        omega
    · dsimp only [emergencyMaxMin, minute]
      omega
  | none =>
    dsimp only
    split
    · refine ⟨by dsimp only; omega, hgiven, nofun, fun stop hstop => ?_⟩
      cases hstop
      refine ⟨now + waitMs, ?_, ?_, Or.inr ⟨rfl, Or.inl rfl⟩⟩
      · exact Granted.waiting _ rfl
      · dsimp only [minute]
        omega
    · exact ⟨by dsimp only; omega, hgiven, fun _ => rfl, nofun⟩

theorem initialGrant_id (id orgId admin : Text) (input : RequestInput) (now : ℤ) :
    (initialGrant id orgId admin input now).id = id := by
  unfold initialGrant
  cases input.emergency with
  | some category => rfl
  | none =>
    dsimp only
    split <;> rfl

theorem inv_request (h : Inv s) {admin : Text} {input : RequestInput} {orgId id : Text}
    {isMember : Bool} {deciders : List Text} {now : ℤ} (hnow : now ≤ s.clock)
    (hs : s.request admin input orgId id isMember deciders now = some s') : Inv s' := by
  unfold State.request at hs
  cases hr : requestPlatformAccess admin input orgId id isMember deciders now with
  | error e =>
    rw [hr] at hs
    cases hs
    exact h
  | ok g =>
    rw [hr] at hs
    dsimp only at hs
    split at hs
    · rename_i hfresh
      cases hs
      have hg : g = initialGrant id orgId admin input now ∧ validateRequest input = none := by
        unfold requestPlatformAccess at hr
        cases hv : validateRequest input with
        | some e => rw [hv] at hr; cases hr
        | none =>
          rw [hv] at hr
          dsimp only at hr
          split at hr
          · cases hr
          split at hr
          · cases hr
          · cases hr
            exact ⟨rfl, rfl⟩
      obtain ⟨rfl, hvalid⟩ := hg
      have hid := initialGrant_id id orgId admin input now
      have hnew : ∀ x ∈ s.grants, x.id ≠ id := fun x hx =>
        of_decide_eq_true (List.all_eq_true.mp hfresh x hx)
      have hgrows : Grows s ({ s with grants := s.grants ++ [initialGrant id orgId admin input now]
          }.write (.requested id)) :=
        ⟨le_rfl, fun e he => List.mem_append_left _ he, fun x hx =>
          ⟨x, List.mem_append_left _ hx, Kept.refl x⟩⟩
      have huses : ∀ x, usesOf (s.log ++ [.requested id]) x = usesOf s.log x := fun x => by
        rw [usesOf_append]
        exact List.append_nil _
      refine ⟨?_, ?_, h.calls, ?_, ?_, ?_, ?_⟩
      · change ((s.grants ++ [initialGrant id orgId admin input now]).map (·.id)).Nodup
        rw [List.map_append]
        refine List.Nodup.append h.ids (List.nodup_singleton _) ?_
        intro x hx hx'
        obtain ⟨y, hy, rfl⟩ := List.mem_map.mp hx
        exact hnew y hy ((List.mem_singleton.mp hx').trans hid)
      · intro x hx
        rcases List.mem_append.mp hx with hx | hx
        · exact (h.rows x hx).mono hgrows.log le_rfl
        · rw [List.mem_singleton.mp hx]
          exact initialGrant_spec hvalid hnow _
      · intro id' d time hmem
        rcases List.mem_append.mp hmem with hmem | hmem
        · obtain ⟨x, hx, hxid, hxrev⟩ := h.revoked id' d time hmem
          exact ⟨x, List.mem_append_left _ hx, hxid, hxrev⟩
        · cases List.mem_singleton.mp hmem
      · exact fun k c orgId' grant rest hc hst =>
          hgrows.covers (h.recording k c orgId' grant rest hc hst) le_rfl
      · intro r hr
        rcases List.mem_append.mp hr with hr | hr
        · exact hgrows.covers (h.used r hr) le_rfl
        · cases List.mem_singleton.mp hr
      · intro x hx hsingle
        change (usesOf (s.log ++ [.requested id]) x.id).length ≤ _
        rw [huses]
        rcases List.mem_append.mp hx with hx | hx
        · exact h.once x hx hsingle
        · rw [List.mem_singleton.mp hx, hid]
          -- nothing names the new id yet
          have hnone : usesOf s.log id = [] := by
            apply List.filterMap_eq_nil_iff.mpr
            intro e he
            cases e with
            | used r =>
              obtain ⟨y, hy, hyid, -⟩ := h.used r he
              exact if_neg fun heq => hnew y hy (hyid.trans heq)
            | _ => rfl
          rw [hnone]
          exact Nat.zero_le _
    · cases hs

/-! ## Calls -/

/-- A step that only moves a call. -/
theorem Inv.setCall {c : Call} (h : Inv s) (k : ℕ) (hnow : c.now ≤ s.clock)
    (hrec : ∀ orgId grant rest, c.stage = .recording orgId grant rest →
      ∃ g ∈ s.grants, g.id = grant.id ∧ g.status ≠ .requested ∧
        Covered s.log orgId c.use c.now s.clock g) : Inv (s.setCall k c) where
  ids := h.ids
  rows := h.rows
  calls j c' hc' := by
    change Function.update s.calls k (some c) j = some c' at hc'
    by_cases hj : j = k
    · rw [hj, Function.update_self] at hc'
      cases hc'
      exact hnow
    · rw [Function.update_of_ne hj] at hc'
      exact h.calls j c' hc'
  revoked := h.revoked
  recording j c' orgId grant rest hc' hst := by
    change Function.update s.calls k (some c) j = some c' at hc'
    by_cases hj : j = k
    · rw [hj, Function.update_self] at hc'
      cases hc'
      exact hrec orgId grant rest hst
    · rw [Function.update_of_ne hj] at hc'
      exact h.recording j c' orgId grant rest hc' hst
  used := h.used
  once := h.once

theorem inv_tick (h : Inv s) {t : ℤ} (ht : s.clock ≤ t) : Inv { s with clock := t } where
  ids := h.ids
  rows g hg := (h.rows g hg).mono (fun _ he => he) ht
  calls k c hc := (h.calls k c hc).trans ht
  revoked := h.revoked
  recording k c orgId grant rest hc hst := by
    obtain ⟨g, hg, hid, hset, hcov⟩ := h.recording k c orgId grant rest hc hst
    exact ⟨g, hg, hid, hset, hcov.kept hset (Kept.refl g) (fun _ he => he) ht⟩
  used := h.used
  once := h.once

theorem inv_start (h : Inv s) {k : ℕ} {use : GrantUse} {orgIds : List Text} {all : Bool}
    (hs : s.start k use orgIds all = some s') : Inv s' := by
  unfold State.start at hs
  split at hs
  · cases hs
  split at hs
  · cases hs
    exact h.setCall k le_rfl fun _ _ _ h => by cases h
  split at hs
  · cases hs
    exact h.setCall k le_rfl fun _ _ _ h => by cases h
  · cases hs

theorem inv_goOn (h : Inv s) {k : ℕ} (hs : s.goOn k = some s') : Inv s' := by
  unfold State.goOn at hs
  cases hc : s.calls k with
  | none => rw [hc] at hs; cases hs
  | some c =>
    rw [hc] at hs
    dsimp only at hs
    split at hs
    · cases hs
      exact h.setCall k (h.calls k c hc) fun _ _ _ h => by cases h
    · cases hs
      exact h.setCall k le_rfl fun _ _ _ h => by cases h
    · cases hs
      exact h.setCall k (h.calls k c hc) fun _ _ _ h => by cases h
    · cases hs

theorem inv_read (h : Inv s) {k : ℕ} {rows : List Grant} (hs : s.read k rows = some s') :
    Inv s' := by
  unfold State.read at hs
  cases hc : s.calls k with
  | none => rw [hc] at hs; cases hs
  | some c =>
    have hnow := h.calls k c hc
    rw [hc] at hs
    dsimp only at hs
    split at hs
    · split at hs
      · split at hs
        · cases hs
          exact h.setCall k hnow fun _ _ _ h => by cases h
        · cases hs
          exact h.setCall k hnow fun _ _ _ h => by cases h
      · cases hs
    · split at hs
      · rename_i hrows
        split at hs
        · cases hs
          exact h.setCall k hnow fun _ _ _ h => by cases h
        · rename_i g hfind
          cases hs
          refine Inv.setCall (c := { c with stage := .recording _ g _ }) h k hnow ?_
          intro orgId grant rest hst
          cases hst
          obtain ⟨hg, hmatch⟩ := findActiveGrant_spec hrows hfind
          exact ⟨g, hg, rfl, (active_spec hmatch.active).2.1, hmatch.covered (h.rows g hg) hnow⟩
      · cases hs
    · cases hs

/-- The time of a use is no part of what holds of a row. -/
theorem RowInv.spent {clock t : ℤ} (h : RowInv log clock g) :
    RowInv log clock (g.spend t) where
  duration := h.duration
  target := h.target
  open_ := h.open_
  granted stop hstop := by
    obtain ⟨start, hg, hlt, hwhen⟩ := h.granted stop hstop
    refine ⟨start, hg.kept ⟨rfl, rfl, rfl, rfl, rfl, rfl, rfl, rfl, rfl, ?_, ?_⟩ fun _ he => he,
      hlt, hwhen⟩
    · exact fun hn => ⟨hn, rfl⟩
    · exact fun hr => hr

theorem spend_id (g : Grant) (t : ℤ) : (g.spend t).id = g.id := rfl

theorem usesOf_used (r : Recorded) (id : Text) :
    usesOf [.used r] id = if r.grant.id = id then [r] else [] := by
  by_cases h : r.grant.id = id <;> simp [usesOf, h]

/-- The record of a use, with the time of its row. -/
theorem Inv.recorded {p : Grant → Bool} {r : Recorded} {t : ℤ} (h : Inv s)
    (hcov : ∃ g ∈ s.grants, g.id = r.grant.id ∧ g.status ≠ .requested ∧
      Covered s.log r.orgId r.use r.now r.recordedAt g)
    (honce : ∀ g ∈ s.grants, scopeSingleUse g.scope = true → g.id = r.grant.id →
      p g = true ∧ g.usedAt = none) :
    Inv ((s.update p (·.spend t)).write (.used r)) := by
  have hgrows : Grows s ((s.update p (·.spend t)).write (.used r)) := by
    refine ⟨le_rfl, fun x hx => List.mem_append_left _ hx, fun g hg => ?_⟩
    refine ⟨if p g then g.spend t else g, List.mem_map_of_mem hg, ?_⟩
    split
    · exact ⟨rfl, rfl, rfl, rfl, rfl, rfl, rfl, rfl, rfl, fun hn => ⟨hn, rfl⟩, fun hr => hr⟩
    · exact Kept.refl g
  refine ⟨?_, ?_, h.calls, ?_, ?_, ?_, ?_⟩
  · change ((s.update p (·.spend t)).grants.map (·.id)).Nodup
    rw [ids_update (f := (·.spend t)) fun _ => rfl]
    exact h.ids
  · intro g' hg'
    obtain ⟨g, hg, rfl⟩ := mem_update hg'
    have hrow := (h.rows g hg).mono hgrows.log le_rfl
    split
    · exact hrow.spent
    · exact hrow
  · intro id d time hmem
    rcases List.mem_append.mp hmem with hmem | hmem
    · obtain ⟨g, hg, hgid, hgrev⟩ := h.revoked id d time hmem
      obtain ⟨g', hg', hk⟩ := hgrows.rows g hg
      exact ⟨g', hg', hk.id.trans hgid, hk.revoked hgrev⟩
    · cases List.mem_singleton.mp hmem
  · exact fun k c orgId grant rest hc hst =>
      hgrows.covers (h.recording k c orgId grant rest hc hst) le_rfl
  · intro r' hr'
    rcases List.mem_append.mp hr' with hr' | hr'
    · exact hgrows.covers (h.used r' hr') le_rfl
    · cases List.mem_singleton.mp hr'
      exact hgrows.covers hcov le_rfl
  · intro g' hg' hsingle
    obtain ⟨g, hg, rfl⟩ := mem_update hg'
    have hscope : scopeSingleUse g.scope = true := by
      split at hsingle <;> exact hsingle
    have hbound := h.once g hg hscope
    change (usesOf (s.log ++ [.used r]) _).length ≤ _
    rw [usesOf_append, usesOf_used, List.length_append]
    by_cases hid : g.id = r.grant.id
    · obtain ⟨hp, hfree⟩ := honce g hg hscope hid
      rw [hfree] at hbound
      rw [if_pos hp, spend_id, if_pos hid.symm]
      exact Nat.add_le_add_right hbound 1
    · by_cases hp : p g = true
      · rw [if_pos hp, spend_id, if_neg (Ne.symm hid)]
        refine hbound.trans ?_
        change (if g.usedAt.isSome = true then 1 else 0) ≤ 1
        split <;> omega
      · rw [if_neg hp, if_neg (Ne.symm hid)]
        exact hbound

theorem update_none (s : State) (f : Grant → Grant) : s.update (fun _ => false) f = s := by
  simp [update]

theorem inv_record (h : Inv s) {k : ℕ} (hs : s.record k = some s') : Inv s' := by
  unfold State.record at hs
  cases hc : s.calls k with
  | none => rw [hc] at hs; cases hs
  | some c =>
    have hnow := h.calls k c hc
    rw [hc] at hs
    dsimp only at hs
    split at hs
    · rename_i orgId grant rest hst
      have hcov := h.recording k c orgId grant rest hc hst
      -- the row of a use of another kind is no single-use grant
      have hscope : ∀ g ∈ s.grants, g.id = grant.id → g.scope = c.use.scope := by
        obtain ⟨x, hx, hxid, -, hxcov⟩ := hcov
        intro g hg hid
        rw [h.eq_of_id hg hx (hid.trans hxid.symm)]
        exact hxcov.scope
      split at hs
      · split at hs
        · rename_i hfree
          cases hs
          refine Inv.setCall (h.recorded hcov ?_) k hnow fun _ _ _ h => by cases h
          intro g hg _ hid
          obtain ⟨x, hx, hxp⟩ := List.any_eq_true.mp hfree
          rw [Bool.and_eq_true, decide_eq_true_eq, decide_eq_true_eq] at hxp
          have hxg : g = x := h.eq_of_id hg hx (hid.trans hxp.1.symm)
          rw [hxg, Bool.and_eq_true, decide_eq_true_eq, decide_eq_true_eq]
          exact ⟨hxp, hxp.2⟩
        · cases hs
          exact h.setCall k hnow fun _ _ _ h => by cases h
      · rename_i hmany
        have hno : ∀ g ∈ s.grants, scopeSingleUse g.scope = true → g.id = grant.id → False :=
          fun g hg hsingle hid => hmany (hscope g hg hid ▸ hsingle)
        split at hs
        · cases hs
          refine Inv.setCall (h.recorded hcov ?_) k hnow fun _ _ _ h => by cases h
          exact fun g hg hsingle hid => absurd (hno g hg hsingle hid) id
        · cases hs
          have hrec := h.recorded (p := fun _ => false) (t := 0)
            (r := ⟨k, orgId, c.use, grant, c.now, s.clock⟩) hcov
            fun g hg hsingle hid => absurd (hno g hg hsingle hid) id
          rw [update_none] at hrec
          exact hrec.setCall k hnow fun _ _ _ h => by cases h
    · cases hs

theorem inv_step (h : Inv s) {a : Action} (hs : s.step a = some s') : Inv s' := by
  unfold State.step at hs
  cases a with
  | tick t =>
    dsimp only at hs
    split at hs
    · cases hs
      exact inv_tick h ‹_›
    · cases hs
  | request admin input orgId id isMember deciders now =>
    dsimp only at hs
    split at hs
    · exact inv_request h ‹_› hs
    · cases hs
  | decide orgId d id approve note now =>
    dsimp only at hs
    split at hs
    · cases hs
      exact inv_decide h orgId d id approve note ‹_›
    · cases hs
  | revoke orgId d id now =>
    dsimp only at hs
    split at hs
    · cases hs
      exact inv_revoke h orgId d id now
    · cases hs
  | start k use orgIds all => exact inv_start h hs
  | read k rows => exact inv_read h hs
  | goOn k => exact inv_goOn h hs
  | record k => exact inv_record h hs

theorem inv_reached {ok : State → Action → Prop} {clock : ℤ}
    (h : ReachedIf ok (holding [] clock) s) : Inv s := by
  induction h with
  | start => exact inv_holding clock
  | step _ _ hs ih => exact inv_step ih hs

end State

end Klick.Lockbox
