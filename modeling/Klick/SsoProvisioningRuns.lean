-- Runs of sign-ons beside people at work. A role is overwritten by the id of its row, a
-- membership is made without a lock, and the newest session of the last minute is taken to be
-- one's own: each is right where nobody comes in between.
import Klick.SsoProvisioning

open Js Interleaving

namespace Klick.Sso.Provisioning

/-! ## The rules -/

/-- What provisioning does stays within its mandate. -/
structure Sound (L : LowerCase) (w : World) : Prop where
  /-- It overwrites no role of an owner, an auditor or a consultant. -/
  roles : ∀ role ∈ w.overwritten, (normalizeRole role).fromGroups = true
  /-- It confirms the session of the callback whose claims prove the second factor. -/
  ownSession : ∀ c ∈ w.confirmations, c.createdBy = some c.callback ∧
    c.input.provesMfa L = true ∧ c.input.provider.organizationId = some c.org
  /-- The confirmation counts in the organisation of the provider only, -/
  counts : ∀ s ∈ w.sessions, ∀ org ∈ s.confirmedFor, (effectiveMfaVerifiedAt s).isSome →
    s.activeOrganizationId = some org
  /-- and for no step-up. -/
  stepUp : ∀ s ∈ w.sessions, s.confirmedFor.isSome → ∀ now,
    isStepUpFresh s.stepUpAt s.mfaVerifiedAt now = isStepUpFresh s.stepUpAt none now
  /-- It gives no account a second membership of its own. -/
  memberships : ∀ c ∈ w.commits, c.after ≤ 1 ∨ c.after ≤ c.before

/-- It has found that a membership may be made. -/
def Provision.willJoin (p : Provision) : Bool := p.stage = .joining || p.stage = .absent true

/-- Nobody comes in between: an account that a provisioning is about to make a member gets no
membership of its own, a member whose role it is about to change becomes no owner, auditor or
consultant, and when it reads the newest session to confirm it, its own is there and is newer
than all others. -/
def Undisturbed (w : World) : Act → Prop
  | .addMember row => normalizeRole row.role ≠ .consultant →
      ∀ p ∈ w.provisions, p.input.userId = row.userId → p.willJoin = false
  | .setRole memberId role =>
      ((normalizeRole role).fromGroups = false → ∀ p ∈ w.provisions, p.stage ≠ .changing memberId) ∧
      (normalizeRole role ≠ .consultant → ∀ m ∈ w.members, m.id = memberId →
        ∀ p ∈ w.provisions, p.input.userId = m.userId → p.willJoin = false)
  | .commitMember i _ => ∀ p ∈ w.provisions[i]?, p.stage = .joining →
      ∀ q ∈ w.provisions.eraseIdx i, q.input.userId = p.input.userId → q.willJoin = false
  | .readSession i => ∀ p ∈ w.provisions[i]?, p.plan.mfa = true →
      ∀ s ∈ w.recent p.input.userId, s.id ≠ p.sessionId →
        ∃ own ∈ w.recent p.input.userId, own.id = p.sessionId ∧ s.createdAt < own.createdAt
  | _ => True

instance (w : World) (a : Act) : Decidable (Undisturbed w a) := by
  cases a <;> unfold Undisturbed <;> infer_instance

/-- The confirmation of a session is one's own, or that of an organisation. -/
structure Labelled (s : Session) : Prop where
  org : s.mfaOrgId = s.confirmedFor
  named : ∀ org ∈ s.confirmedFor, org ≠ []
  stepUp : s.confirmedFor.isSome → s.stepUpAt.isSome

/-- No provisioning is under way, and none was yet. -/
structure World.Fresh (w : World) : Prop where
  ids : (w.members.map (·.id)).Nodup
  sessions : ∀ s ∈ w.sessions, Labelled s
  provisions : w.provisions = []
  overwritten : w.overwritten = []
  commits : w.commits = []
  confirmations : w.confirmations = []

/-! ## What a provisioning does -/

/-- What holds of a stage when a provisioning enters it. -/
def Entered (w : World) (p : Provision) (act : Act) : Stage → Prop
  | .absent allowed => allowed = true →
      ∀ m ∈ w.members, m.userId = p.input.userId → normalizeRole m.role = .consultant
  | .changing id => ∃ m ∈ w.members, m.id = id ∧ (normalizeRole m.role).fromGroups = true
  | .joining => p.stage = .absent true
  | .chosen _ latest => (∃ j, act = .readSession j) ∧ latest ∈ w.recent p.input.userId ∧
      ∀ s ∈ w.recent p.input.userId, s.createdAt ≤ latest.createdAt
  | _ => True

inductive Effect (w : World) (i : ℕ) (p : Provision) (act : Act) : World → Prop
  | ends : Effect w i p act (w.drop i)
  | moves (stage : Stage) (h : Entered w p act stage) : Effect w i p act (w.setStage i p stage)
  | joins (j : ℕ) (memberId : Text) (hact : act = .commitMember j memberId)
    (hstage : p.stage = .joining) (hnew : ∀ m ∈ w.members, m.id ≠ memberId)
    (hfree : ∀ q ∈ w.provisions, q.stage ≠ .changing memberId) :
    Effect w i p act (w.join i p memberId)
  | changes (memberId : Text) (hstage : p.stage = .changing memberId) :
    Effect w i p act (w.changeRole i p memberId)
  | confirms (joined : Bool) (latest : Session) (hstage : p.stage = .chosen joined latest) :
    Effect w i p act (w.confirm i p joined latest)

/-- A group's role is not a consultant's, so it asks for no other membership of one's own. -/
theorem consultant_of_allowed {memberships : List Member} {role : SsoRole}
    (h : membershipAllowed (memberships.map fun m => normalizeRole m.role) role.toOrg = true) :
    ∀ m ∈ memberships, normalizeRole m.role = .consultant := by
  have hrole : role.toOrg ≠ .consultant := by
    cases role <;> decide
  simp only [membershipAllowed, hrole, decide_false, Bool.false_or, decide_eq_true_eq] at h
  intro m hm
  have hnil := List.length_eq_zero_iff.mp h
  have hnot := List.filter_eq_nil_iff.mp hnil (normalizeRole m.role) (List.mem_map_of_mem hm)
  simpa using hnot

theorem entered_of_members {w : World} {p : Provision} (act : Act) : Entered w p act
    (stageOfMembers (w.members.filter fun m => m.userId = p.input.userId) p.plan) := by
  unfold stageOfMembers
  split
  · intro hallowed m hm hid
    exact consultant_of_allowed hallowed m (List.mem_filter.mpr ⟨hm, by simpa using hid⟩)
  · rename_i here hfind
    dsimp only
    split_ifs with hchange
    · have hmem := (List.mem_filter.mp (List.mem_of_find?_eq_some hfind)).1
      exact ⟨here, hmem, rfl, hchange.2⟩
    · trivial

/-- Every step of a provisioning is one of these. -/
theorem effect_of_step {L : LowerCase} {w w' : World} {i : ℕ} {p : Provision} {act : Act}
    (h : provisionStep L w i p act = some w') : Effect w i p act w' := by
  unfold provisionStep at h
  split at h
  · cases h
    exact .moves _ (entered_of_members _)
  · rename_i allowed j hstage
    cases h
    apply Effect.moves
    split_ifs with hstop
    · trivial
    · simp only [Bool.or_eq_true, not_or, Bool.not_eq_true', Bool.not_eq_false] at hstop
      rw [hstop.2] at hstage
      exact hstage
  · rename_i j memberId hstage
    split_ifs at h with hnew
    push Not at hnew
    cases h
    exact .joins j memberId rfl hstage hnew.1 hnew.2
  · rename_i memberId j id hstage
    cases h
    exact .changes memberId hstage
  · rename_i here joined j hstage
    cases h
    split_ifs
    · exact .ends
    · split
      · exact .ends
      · rename_i latest hlatest
        obtain ⟨hmem, hmax⟩ := newest_spec hlatest
        exact .moves _ ⟨⟨j, rfl⟩, hmem, hmax⟩
  · rename_i joined latest j hstage
    cases h
    exact .confirms joined latest hstage
  · cases h
    exact .ends
  · cases h

/-! ## Memberships -/

/-- What a provisioning has found of the members is still so. -/
structure StillSo (members : List Member) (p : Provision) : Prop where
  changing : ∀ id, p.stage = .changing id → ∀ m ∈ members, m.id = id →
    (normalizeRole m.role).fromGroups = true
  joining : p.willJoin = true → ∀ m ∈ members, m.userId = p.input.userId →
    normalizeRole m.role = .consultant

structure MembersInv (w : World) : Prop where
  ids : (w.members.map (·.id)).Nodup
  found : ∀ p ∈ w.provisions, StillSo w.members p
  roles : ∀ role ∈ w.overwritten, (normalizeRole role).fromGroups = true
  commits : ∀ c ∈ w.commits, c.after ≤ 1 ∨ c.after ≤ c.before

/-- Of a stage that says nothing of the members. -/
theorem StillSo.of_stage {members : List Member} {p : Provision} (hchanging : ∀ id,
    p.stage ≠ .changing id) (hjoin : p.willJoin = false) : StillSo members p where
  changing id h := absurd h (hchanging id)
  joining h := by
    rw [hjoin] at h
    cases h

/-- The members are left, or some of them go. -/
theorem MembersInv.keep {w w' : World} (h : MembersInv w)
    (hmembers : w'.members.Sublist w.members) (hprovisions : ∀ p ∈ w'.provisions,
      p ∈ w.provisions ∨ StillSo w'.members p) (hoverwritten : w'.overwritten = w.overwritten)
    (hcommits : w'.commits = w.commits) : MembersInv w' where
  ids := h.ids.sublist (hmembers.map _)
  found p hp := by
    rcases hprovisions p hp with hp | hp
    · have hfound := h.found p hp
      exact ⟨fun id hs m hm => hfound.changing id hs m (hmembers.subset hm),
        fun hj m hm => hfound.joining hj m (hmembers.subset hm)⟩
    · exact hp
  roles := by
    rw [hoverwritten]
    exact h.roles
  commits := by
    rw [hcommits]
    exact h.commits

theorem StillSo.append {members : List Member} {p : Provision} (h : StillSo members p)
    {row : Member} (hid : p.stage ≠ .changing row.id) (hrole : p.input.userId = row.userId →
      p.willJoin = true → normalizeRole row.role = .consultant) :
    StillSo (members ++ [row]) p where
  changing id hs m hm heq := by
    rcases List.mem_append.mp hm with hm | hm
    · exact h.changing id hs m hm heq
    · rw [List.mem_singleton.mp hm] at heq
      exact absurd (heq ▸ hs) hid
  joining hj m hm heq := by
    rcases List.mem_append.mp hm with hm | hm
    · exact h.joining hj m hm heq
    · rw [List.mem_singleton.mp hm] at heq ⊢
      exact hrole heq.symm hj

theorem ids_append {members : List Member} (h : (members.map (·.id)).Nodup) {row : Member}
    (hnew : ∀ m ∈ members, m.id ≠ row.id) : ((members ++ [row]).map (·.id)).Nodup := by
  rw [((List.perm_append_singleton row members).map (·.id)).nodup_iff, List.map_cons,
    List.nodup_cons]
  refine ⟨fun hin => ?_, h⟩
  obtain ⟨m, hm, hid⟩ := List.mem_map.mp hin
  exact hnew m hm hid

/-- The role of one row is set. -/
theorem StillSo.setRole {members : List Member} {p : Provision} (h : StillSo members p)
    {memberId role : Text}
    (hchanging : (normalizeRole role).fromGroups = false → p.stage ≠ .changing memberId)
    (hjoin : normalizeRole role ≠ .consultant → ∀ m ∈ members, m.id = memberId →
      p.input.userId = m.userId → p.willJoin = false) :
    StillSo (updateRows (·.id = memberId) (fun m => { m with role }) members) p where
  changing id hs m hm heq := by
    rcases mem_updateRows.mp hm with ⟨n, hn, hp, rfl⟩ | ⟨hm, -⟩
    · by_contra hnot
      have hid : n.id = memberId := of_decide_eq_true hp
      apply hchanging (Bool.eq_false_of_not_eq_true hnot)
      rw [← hid, hs]
      exact congrArg Stage.changing heq.symm
    · exact h.changing id hs m hm heq
  joining hj m hm heq := by
    rcases mem_updateRows.mp hm with ⟨n, hn, hp, rfl⟩ | ⟨hm, -⟩
    · by_contra hnot
      have hfalse := hjoin hnot n hn (of_decide_eq_true hp) heq.symm
      rw [hfalse] at hj
      cases hj
    · exact h.joining hj m hm heq

theorem fromGroups_toOrg (role : SsoRole) : role.toOrg.fromGroups = true := by
  cases role <;> rfl

theorem ne_consultant_of_fromGroups {r : OrgRole} (h : r.fromGroups = true) : r ≠ .consultant := by
  rintro rfl
  cases h

/-- No membership of one's own was there: the new one is the only one. -/
theorem ownCount_append {members : List Member} (row : Member)
    (h : ∀ m ∈ members, m.userId = row.userId → normalizeRole m.role = .consultant) :
    (members ++ [row]).countP (fun m => m.userId = row.userId && normalizeRole m.role ≠ .consultant)
      ≤ 1 := by
  rw [List.countP_append, List.countP_eq_zero.mpr, Nat.zero_add]
  · exact List.countP_le_length
  · intro m hm
    by_cases hid : m.userId = row.userId
    · simp [hid, h m hm hid]
    · simp [hid]

/-- A role of one's own in the place of another. -/
theorem ownCount_setRole {members : List Member} {memberId : Text} {role : SsoRole}
    (h : ∀ m ∈ members, m.id = memberId → (normalizeRole m.role).fromGroups = true)
    (userId : Text) :
    (updateRows (·.id = memberId) (fun m => { m with role := role.text }) members).countP
        (fun m => m.userId = userId && normalizeRole m.role ≠ .consultant) =
      members.countP (fun m => m.userId = userId && normalizeRole m.role ≠ .consultant) := by
  unfold updateRows
  rw [List.countP_map]
  apply List.countP_congr
  intro m hm
  by_cases hid : m.id = memberId
  · have hbefore := ne_consultant_of_fromGroups (h m hm hid)
    have hafter := ne_consultant_of_fromGroups (fromGroups_toOrg role)
    simp [hid, hbefore, hafter, normalizeRole_text]
  · simp [hid]

theorem stillSo_of_entered {w : World} (h : MembersInv w) {p : Provision} (hp : p ∈ w.provisions)
    {act : Act} {stage : Stage} (hentered : Entered w p act stage) :
    StillSo w.members { p with stage } := by
  cases stage with
  | planned => exact .of_stage (fun _ => nofun) rfl
  | absent allowed =>
    refine ⟨fun _ heq => (nomatch heq), fun hj => hentered ?_⟩
    simpa [Provision.willJoin] using hj
  | joining =>
    refine ⟨fun _ heq => (nomatch heq), fun _ => (h.found p hp).joining ?_⟩
    unfold Provision.willJoin
    rw [show p.stage = .absent true from hentered]
    rfl
  | changing id =>
    refine ⟨?_, fun hj => nomatch hj⟩
    intro id' heq m hm hid
    cases heq
    obtain ⟨n, hn, hnid, hrole⟩ := hentered
    rw [List.inj_on_of_nodup_map h.ids hm hn (hid.trans hnid.symm)]
    exact hrole
  | settled here joined => exact .of_stage (fun _ => nofun) rfl
  | chosen joined latest => exact .of_stage (fun _ => nofun) rfl

theorem mem_set {l : List Provision} {i : ℕ} {p q : Provision} (h : q ∈ l.set i p) :
    q ∈ l.eraseIdx i ∨ q = p := by
  by_cases hi : i < l.length
  · have hperm := List.set_perm_cons_eraseIdx hi p
    rcases List.mem_cons.mp (hperm.mem_iff.mp h) with heq | hq
    · exact .inr heq
    · exact .inl hq
  · rw [List.set_eq_of_length_le (not_lt.mp hi)] at h
    rw [List.eraseIdx_of_length_le (not_lt.mp hi)]
    exact .inl h

/-- **A provisioning overwrites no role that is not of groups, and makes no second membership.** -/
theorem MembersInv.effect {w w' : World} (h : MembersInv w) {i : ℕ} {p : Provision} {act : Act}
    (hp : w.provisions[i]? = some p) (he : Effect w i p act w')
    (hok : ∀ j id, act = .commitMember j id → p.stage = .joining →
      ∀ q ∈ w.provisions.eraseIdx i, q.input.userId = p.input.userId → q.willJoin = false) :
    MembersInv w' := by
  have hmem := List.mem_of_getElem? hp
  cases he with
  | ends =>
    exact h.keep (.refl _) (fun q hq => .inl (List.mem_of_mem_eraseIdx hq)) rfl rfl
  | moves stage hentered =>
    refine h.keep (.refl _) (fun q hq => ?_) rfl rfl
    rcases mem_set hq with hq | rfl
    · exact .inl (List.mem_of_mem_eraseIdx hq)
    · exact .inr (stillSo_of_entered h hmem hentered)
  | joins j memberId hact hstage hnew hfree =>
    have hwill : p.willJoin = true := by
      unfold Provision.willJoin
      rw [hstage]
      rfl
    refine ⟨ids_append h.ids hnew, ?_, h.roles, ?_⟩
    · intro q hq
      rcases mem_set hq with hq | rfl
      · have hin := List.mem_of_mem_eraseIdx hq
        refine (h.found q hin).append (hfree q hin) (fun heq hwillq => ?_)
        rw [hok j memberId hact hstage q hq heq] at hwillq
        cases hwillq
      · exact .of_stage (fun _ => nofun) rfl
    · intro c hc
      rcases List.mem_cons.mp hc with rfl | hc
      · exact .inl (ownCount_append ⟨memberId, p.plan.org, p.input.userId, p.plan.role.text⟩
          ((h.found p hmem).joining hwill))
      · exact h.commits c hc
  | changes memberId hstage =>
    have hfound := (h.found p hmem).changing memberId hstage
    refine ⟨?_, ?_, ?_, ?_⟩
    · have hids := map_updateRows (p := (·.id = memberId)) (f := fun m : Member =>
        { m with role := p.plan.role.text }) (g := (·.id)) (fun _ => rfl) w.members
      exact hids.symm ▸ h.ids
    · intro q hq
      rcases mem_set hq with hq | rfl
      · have hin := List.mem_of_mem_eraseIdx hq
        refine (h.found q hin).setRole (fun hfalse => ?_) (fun _ m hm hid heq => ?_)
        · rw [normalizeRole_text, fromGroups_toOrg] at hfalse
          cases hfalse
        · by_contra hwill
          have hcons := (h.found q hin).joining (Bool.not_eq_false _ ▸ hwill) m hm heq.symm
          exact ne_consultant_of_fromGroups (hfound m hm hid) hcons
      · exact .of_stage (fun _ => nofun) rfl
    · intro role hrole
      rcases List.mem_append.mp hrole with hrole | hrole
      · obtain ⟨m, hm, rfl⟩ := List.mem_map.mp hrole
        obtain ⟨hm, hid⟩ := List.mem_filter.mp hm
        exact hfound m hm (of_decide_eq_true hid)
      · exact h.roles role hrole
    · intro c hc
      rcases List.mem_cons.mp hc with rfl | hc
      · exact .inr (ownCount_setRole hfound p.input.userId).le
      · exact h.commits c hc
  | confirms joined latest hstage =>
    exact h.keep (.refl _) (fun q hq => .inl (List.mem_of_mem_eraseIdx hq)) rfl rfl

/-! ## Sessions -/

/-- The confirmation of an organisation counts where that organisation is the active one. -/
theorem Labelled.counts {s : Session} (h : Labelled s) {org : Text} (horg : s.confirmedFor = some org)
    (heffective : (effectiveMfaVerifiedAt s).isSome) : s.activeOrganizationId = some org := by
  have hmfa : s.mfaOrgId = some org := h.org.trans horg
  unfold effectiveMfaVerifiedAt at heffective
  rw [hmfa] at heffective
  split at heffective
  · cases heffective
  · rename_i heq
    cases heq
  · rename_i heq
    cases heq
    split_ifs at heffective with hother
    · cases heffective
    · by_contra hne
      exact hother ⟨h.named org horg, hne⟩

theorem Labelled.noStepUp {s : Session} (h : Labelled s) (hconfirmed : s.confirmedFor.isSome)
    (now : ℤ) : isStepUpFresh s.stepUpAt s.mfaVerifiedAt now = isStepUpFresh s.stepUpAt none now := by
  obtain ⟨t, ht⟩ := Option.isSome_iff_exists.mp (h.stepUp hconfirmed)
  rw [ht]
  rfl

theorem labelled_confirmed {s : Session} (h : Labelled s) {plan : Plan} (horg : plan.org ≠ [])
    (joined : Bool) (latest : Session) (now : ℤ) : Labelled (confirmed joined plan latest now s) := by
  have hactive : Labelled (if joined && latest.activeOrganizationId = none then
      { s with activeOrganizationId := some plan.org } else s) := by
    split_ifs
    · exact ⟨h.org, h.named, h.stepUp⟩
    · exact h
  unfold confirmed
  dsimp only
  split_ifs
  · refine ⟨rfl, ?_, fun _ => rfl⟩
    intro org heq
    cases heq
    exact horg
  · refine ⟨rfl, ?_, fun _ => rfl⟩
    intro org heq
    cases heq
    exact horg
  · exact ⟨h.org, h.named, h.stepUp⟩
  · exact h

@[simp] theorem confirmed_id (joined : Bool) (plan : Plan) (latest : Session) (now : ℤ)
    (s : Session) : (confirmed joined plan latest now s).id = s.id := by
  unfold confirmed
  dsimp only
  split_ifs <;> rfl

@[simp] theorem confirmed_callback (joined : Bool) (plan : Plan) (latest : Session) (now : ℤ)
    (s : Session) : (confirmed joined plan latest now s).callback = s.callback := by
  unfold confirmed
  dsimp only
  split_ifs <;> rfl

/-- What a provisioning knows of its input. -/
structure WellPlanned (L : LowerCase) (p : Provision) : Prop where
  org_ne : p.plan.org ≠ []
  org : p.input.provider.organizationId = some p.plan.org
  mfa : p.plan.mfa = true → p.input.provesMfa L = true

structure SessionsInv (L : LowerCase) (w : World) : Prop where
  labelled : ∀ s ∈ w.sessions, Labelled s
  own : ∀ p ∈ w.provisions, ∀ s ∈ w.sessions, s.id = p.sessionId → s.callback = some p.callback
  plans : ∀ p ∈ w.provisions, WellPlanned L p
  chosen : ∀ p ∈ w.provisions, ∀ joined latest, p.stage = .chosen joined latest →
    p.plan.mfa = true → latest.id = p.sessionId
  confirmations : ∀ c ∈ w.confirmations, c.createdBy = some c.callback ∧
    c.input.provesMfa L = true ∧ c.input.provider.organizationId = some c.org

theorem wellPlanned_of_planOf {L : LowerCase} {ssoPolicy : Text → Value} {input : ProvisionInput}
    {plan : Plan} (h : planOf L ssoPolicy input = some plan) (callback : ℕ) (sessionId : Text)
    (stage : Stage) : WellPlanned L ⟨callback, input, plan, sessionId, stage⟩ := by
  unfold planOf at h
  split at h
  · cases h
  · rename_i org horg
    split_ifs at h with hne hdomain hgoogle
    cases h
    refine ⟨hne, horg, fun hmfa => ?_⟩
    exact (Bool.and_eq_true _ _ |>.mp hmfa).2

/-- Sessions are rewritten, and made anew with an id of their own. -/
theorem SessionsInv.keep {L : LowerCase} {w w' : World} (h : SessionsInv L w)
    (hsessions : ∀ s' ∈ w'.sessions, Labelled s' ∧
      ((∃ s ∈ w.sessions, s'.id = s.id ∧ s'.callback = s.callback) ∨
        ∀ p ∈ w.provisions, p.sessionId ≠ s'.id))
    (hprovisions : ∀ p ∈ w'.provisions, p ∈ w.provisions)
    (hconfirmations : w'.confirmations = w.confirmations) : SessionsInv L w' where
  labelled s hs := (hsessions s hs).1
  own p hp s' hs' hid := by
    rcases (hsessions s' hs').2 with ⟨s, hs, hsid, hcallback⟩ | hnew
    · rw [hcallback]
      exact h.own p (hprovisions p hp) s hs (hsid ▸ hid)
    · exact absurd hid.symm (hnew p (hprovisions p hp))
  plans p hp := h.plans p (hprovisions p hp)
  chosen p hp := h.chosen p (hprovisions p hp)
  confirmations := by
    rw [hconfirmations]
    exact h.confirmations

theorem SessionsInv.same {L : LowerCase} {w w' : World} (h : SessionsInv L w)
    (hsessions : ∀ s ∈ w'.sessions, s ∈ w.sessions)
    (hprovisions : ∀ p ∈ w'.provisions, p ∈ w.provisions)
    (hconfirmations : w'.confirmations = w.confirmations) : SessionsInv L w' :=
  h.keep (fun s hs => ⟨h.labelled s (hsessions s hs), .inl ⟨s, hsessions s hs, rfl, rfl⟩⟩)
    hprovisions hconfirmations

theorem SessionsInv.setSession {L : LowerCase} {w : World} (h : SessionsInv L w) {id : Text}
    {f : Session → Session} (hlabelled : ∀ s, Labelled s → Labelled (f s))
    (hid : ∀ s, (f s).id = s.id) (hcallback : ∀ s, (f s).callback = s.callback) :
    SessionsInv L (w.setSession id f) := by
  refine h.keep (fun s' hs' => ?_) (fun _ hp => hp) rfl
  rcases mem_updateRows.mp hs' with ⟨s, hs, -, rfl⟩ | ⟨hs, -⟩
  · exact ⟨hlabelled s (h.labelled s hs), .inl ⟨s, hs, hid s, hcallback s⟩⟩
  · exact ⟨h.labelled s' hs, .inl ⟨s', hs, rfl, rfl⟩⟩

/-- A provisioning goes on; what it is about stays. -/
theorem SessionsInv.moves {L : LowerCase} {w w' : World} (h : SessionsInv L w) {i : ℕ}
    {p : Provision} (hp : p ∈ w.provisions) {stage : Stage} (hsessions : w'.sessions = w.sessions)
    (hprovisions : w'.provisions = w.provisions.set i { p with stage })
    (hconfirmations : w'.confirmations = w.confirmations)
    (hchosen : ∀ joined latest, stage = .chosen joined latest → p.plan.mfa = true →
      latest.id = p.sessionId) : SessionsInv L w' := by
  refine ⟨hsessions ▸ h.labelled, ?_, ?_, ?_, hconfirmations ▸ h.confirmations⟩
  · rw [hsessions, hprovisions]
    intro q hq
    rcases List.mem_or_eq_of_mem_set hq with hq | rfl
    · exact h.own q hq
    · exact h.own p hp
  · rw [hprovisions]
    intro q hq
    rcases List.mem_or_eq_of_mem_set hq with hq | rfl
    · exact h.plans q hq
    · exact ⟨(h.plans p hp).org_ne, (h.plans p hp).org, (h.plans p hp).mfa⟩
  · rw [hprovisions]
    intro q hq
    rcases List.mem_or_eq_of_mem_set hq with hq | rfl
    · exact h.chosen q hq
    · exact hchosen

/-- **A provisioning confirms its own session**, where that is the newest. -/
theorem SessionsInv.effect {L : LowerCase} {w w' : World} (h : SessionsInv L w) {i : ℕ}
    {p : Provision} {act : Act} (hp : w.provisions[i]? = some p) (he : Effect w i p act w')
    (hok : ∀ j, act = .readSession j → p.plan.mfa = true → ∀ s ∈ w.recent p.input.userId,
      s.id ≠ p.sessionId →
        ∃ own ∈ w.recent p.input.userId, own.id = p.sessionId ∧ s.createdAt < own.createdAt) :
    SessionsInv L w' := by
  have hmem := List.mem_of_getElem? hp
  cases he with
  | ends => exact h.same (fun _ hs => hs) (fun q hq => List.mem_of_mem_eraseIdx hq) rfl
  | moves stage hentered =>
    refine h.moves hmem rfl rfl rfl ?_
    rintro joined latest rfl hmfa
    obtain ⟨⟨j, hact⟩, hlatest, hmax⟩ := hentered
    by_contra hother
    obtain ⟨own, hown, -, hnewer⟩ := hok j hact hmfa latest hlatest hother
    exact absurd (hmax own hown) (not_le.mpr hnewer)
  | joins j memberId hact hstage hnew hfree =>
    exact h.moves hmem rfl rfl rfl fun _ _ heq => nomatch heq
  | changes memberId hstage => exact h.moves hmem rfl rfl rfl fun _ _ heq => nomatch heq
  | confirms joined latest hstage =>
    have horg := (h.plans p hmem).org_ne
    have hset : SessionsInv L (w.setSession latest.id (confirmed joined p.plan latest w.clock)) :=
      h.setSession (fun s hs => labelled_confirmed hs horg joined latest w.clock)
        (confirmed_id _ _ _ _) (confirmed_callback _ _ _ _)
    refine ⟨hset.labelled, fun q hq => hset.own q (List.mem_of_mem_eraseIdx hq),
      fun q hq => h.plans q (List.mem_of_mem_eraseIdx hq),
      fun q hq => h.chosen q (List.mem_of_mem_eraseIdx hq), ?_⟩
    intro c hc
    rcases List.mem_append.mp hc with hc | hc
    · split_ifs at hc with hsets
      · obtain ⟨s, hs, rfl⟩ := List.mem_map.mp hc
        obtain ⟨hs, hid⟩ := List.mem_filter.mp hs
        have hmfa : p.plan.mfa = true := (Bool.and_eq_true _ _ |>.mp hsets).1
        have hlatest := h.chosen p hmem joined latest hstage hmfa
        refine ⟨h.own p hmem s hs ((of_decide_eq_true hid).trans hlatest), ?_, ?_⟩
        · exact (h.plans p hmem).mfa hmfa
        · exact (h.plans p hmem).org
      · cases hc
    · exact h.confirmations c hc

/-! ## Runs -/

theorem provisionAct_keeps {L : LowerCase} {w w' : World} (h : MembersInv w ∧ SessionsInv L w)
    {i : ℕ} {act : Act} (hstep : w.provisionAct L i act = some w')
    (hjoin : ∀ j id, act = .commitMember j id → Undisturbed w (.commitMember i id))
    (hread : ∀ j, act = .readSession j → Undisturbed w (.readSession i)) :
    MembersInv w' ∧ SessionsInv L w' := by
  obtain ⟨p, hp, hstage⟩ := Option.bind_eq_some_iff.mp hstep
  have he := effect_of_step hstage
  exact ⟨h.1.effect hp he fun j id hact => hjoin j id hact p hp,
    h.2.effect hp he fun j hact => hread j hact p hp⟩

/-- **An undisturbed step of anybody keeps provisioning within its mandate.** -/
theorem step_keeps {L : LowerCase} {w w' : World} {act : Act} (h : MembersInv w ∧ SessionsInv L w)
    (hok : Undisturbed w act) (hstep : step L w act = some w') :
    MembersInv w' ∧ SessionsInv L w' := by
  have hself : ∀ p ∈ w.provisions, p ∈ w.provisions := fun _ hp => hp
  have hmembers : ∀ {u : World}, u.members = w.members → u.provisions = w.provisions →
      u.overwritten = w.overwritten → u.commits = w.commits → MembersInv u := by
    intro u hm hp ho hc
    exact h.1.keep (hm ▸ .refl _) (fun p hin => .inl (hp ▸ hin)) ho hc
  have hsessions : ∀ {u : World}, u.sessions = w.sessions → u.provisions = w.provisions →
      u.confirmations = w.confirmations → SessionsInv L u := by
    intro u hs hp hc
    exact h.2.same (fun s hin => hs ▸ hin) (fun p hin => hp ▸ hin) hc
  have hset : ∀ (id : Text) (f : Session → Session), (∀ s, Labelled s → Labelled (f s)) →
      (∀ s, (f s).id = s.id) → (∀ s, (f s).callback = s.callback) →
      MembersInv (w.setSession id f) ∧ SessionsInv L (w.setSession id f) :=
    fun id f hl hid hc => ⟨hmembers rfl rfl rfl rfl, h.2.setSession hl hid hc⟩
  cases act with
  | pass t =>
    simp only [step] at hstep
    split_ifs at hstep
    cases hstep
    exact ⟨hmembers rfl rfl rfl rfl, hsessions rfl rfl rfl⟩
  | setPolicy ssoPolicy =>
    cases hstep
    exact ⟨hmembers rfl rfl rfl rfl, hsessions rfl rfl rfl⟩
  | writeInvitations rows =>
    cases hstep
    exact ⟨hmembers rfl rfl rfl rfl, hsessions rfl rfl rfl⟩
  | addMember row =>
    simp only [step] at hstep
    by_cases hold : (∃ m ∈ w.members, m.id = row.id) ∨ ∃ q ∈ w.provisions, q.stage = .changing row.id
    · rw [if_pos hold] at hstep
      cases hstep
    · rw [if_neg hold] at hstep
      cases hstep
      push Not at hold
      refine ⟨⟨ids_append h.1.ids hold.1, ?_, h.1.roles, h.1.commits⟩, hsessions rfl rfl rfl⟩
      intro p hp
      refine (h.1.found p hp).append (hold.2 p hp) (fun heq hwill => ?_)
      by_contra hown
      rw [hok hown p hp heq] at hwill
      cases hwill
  | setRole memberId role =>
    cases hstep
    refine ⟨⟨?_, ?_, h.1.roles, h.1.commits⟩, hsessions rfl rfl rfl⟩
    · have hids := map_updateRows (p := (·.id = memberId)) (f := fun m : Member =>
        { m with role := role }) (g := (·.id)) (fun _ => rfl) w.members
      exact hids.symm ▸ h.1.ids
    · intro p hp
      exact (h.1.found p hp).setRole (fun hfalse => hok.1 hfalse p hp)
        (fun hown m hm hid heq => hok.2 hown m hm hid p hp heq)
  | removeMember memberId =>
    cases hstep
    exact ⟨h.1.keep List.filter_sublist (fun p hp => .inl hp) rfl rfl, hsessions rfl rfl rfl⟩
  | login id userId impersonated mfaVerifiedAt =>
    simp only [step] at hstep
    split_ifs at hstep with hnew
    cases hstep
    refine ⟨hmembers rfl rfl rfl rfl, h.2.keep (fun s hs => ?_) hself rfl⟩
    rcases List.mem_cons.mp hs with rfl | hs
    · exact ⟨⟨rfl, fun _ heq => (nomatch heq), fun heq => nomatch heq⟩, .inr hnew.2⟩
    · exact ⟨h.2.labelled s hs, .inl ⟨s, hs, rfl, rfl⟩⟩
  | ownFactor sessionId =>
    cases hstep
    refine hset _ _ (fun s hs => ?_) (fun _ => rfl) (fun _ => rfl)
    exact ⟨rfl, fun _ heq => (nomatch heq), fun heq => nomatch heq⟩
  | stepUp sessionId =>
    cases hstep
    refine hset _ _ (fun s hs => ?_) (fun _ => rfl) (fun _ => rfl)
    exact ⟨hs.org, hs.named, fun _ => rfl⟩
  | setActive sessionId org =>
    cases hstep
    refine hset _ _ (fun s hs => ?_) (fun _ => rfl) (fun _ => rfl)
    exact ⟨hs.org, hs.named, hs.stepUp⟩
  | endSession sessionId =>
    cases hstep
    exact ⟨hmembers rfl rfl rfl rfl, h.2.same (fun s hs => (List.mem_filter.mp hs).1) hself rfl⟩
  | callback input sessionId =>
    simp only [step] at hstep
    by_cases hnew : w.NewSession sessionId
    · rw [if_pos hnew] at hstep
      cases hstep
      have hlabelled : Labelled (newSession sessionId input.userId w.clock false none
          (some w.callbacks)) := ⟨rfl, fun _ heq => (nomatch heq), fun heq => nomatch heq⟩
      have hkeep : SessionsInv L { w with
          sessions := newSession sessionId input.userId w.clock false none (some w.callbacks) ::
            w.sessions } := by
        refine h.2.keep (fun s hs => ?_) hself rfl
        rcases List.mem_cons.mp hs with rfl | hs
        · exact ⟨hlabelled, .inr hnew.2⟩
        · exact ⟨h.2.labelled s hs, .inl ⟨s, hs, rfl, rfl⟩⟩
      split
      · rename_i plan hplan
        constructor
        · refine h.1.keep (.refl _) (fun p hp => ?_) rfl rfl
          rcases List.mem_cons.mp hp with rfl | hp
          · exact .inr (.of_stage (fun _ => nofun) rfl)
          · exact .inl hp
        · refine ⟨hkeep.labelled, ?_, ?_, ?_, h.2.confirmations⟩
          · intro p hp s hs hid
            rcases List.mem_cons.mp hp with rfl | hp
            · rcases List.mem_cons.mp hs with rfl | hs
              · rfl
              · exact absurd hid (hnew.1 s hs)
            · exact hkeep.own p hp s hs hid
          · intro p hp
            rcases List.mem_cons.mp hp with rfl | hp
            · exact wellPlanned_of_planOf hplan _ _ _
            · exact h.2.plans p hp
          · intro p hp
            rcases List.mem_cons.mp hp with rfl | hp
            · exact fun _ _ heq => nomatch heq
            · exact h.2.chosen p hp
      · refine ⟨hmembers rfl rfl rfl rfl, hkeep.labelled, hkeep.own, h.2.plans, h.2.chosen, ?_⟩
        exact h.2.confirmations
    · rw [if_neg hnew] at hstep
      cases hstep
  | readMembers i =>
    exact provisionAct_keeps h hstep (fun _ _ heq => nomatch heq) (fun _ heq => nomatch heq)
  | readInvitation i =>
    exact provisionAct_keeps h hstep (fun _ _ heq => nomatch heq) (fun _ heq => nomatch heq)
  | commitMember i id =>
    exact provisionAct_keeps h hstep (fun _ _ _ => hok) (fun _ heq => nomatch heq)
  | readSession i =>
    exact provisionAct_keeps h hstep (fun _ _ heq => nomatch heq) (fun _ _ => hok)
  | confirm i =>
    exact provisionAct_keeps h hstep (fun _ _ heq => nomatch heq) (fun _ heq => nomatch heq)
  | fail i =>
    exact provisionAct_keeps h hstep (fun _ _ heq => nomatch heq) (fun _ heq => nomatch heq)

/-- A company that trusts its own second factor, and its members. -/
def company (members : List Member) : World where
  clock := 100000
  members := members
  invitations := []
  sessions := []
  ssoPolicy _ := .obj [(js "trustIdpMfa", .bool true), (js "defaultRole", .str (js "viewer"))]
  callbacks := 0
  provisions := []
  overwritten := []
  commits := []
  confirmations := []

theorem company_fresh {members : List Member} (h : (members.map (·.id)).Nodup) :
    (company members).Fresh where
  ids := h
  sessions _ hs := nomatch hs
  provisions := rfl
  overwritten := rfl
  commits := rfl
  confirmations := rfl

/-- A sign-on with a second factor. -/
def signOn : ProvisionInput where
  userId := js "u1"
  email := js "x@a.de"
  userInfo := []
  idToken := some [(js "amr", .arr [.str (js "mfa")])]
  provider := ⟨js "p1", some (js "o1"), js "https://idp.de", js "a.de", some true⟩

/-- The member becomes an owner after its role was read. -/
def promotedInBetween : List Act :=
  [.callback signOn (js "s1"), .readMembers 0, .setRole (js "m1") (js "owner"),
    .commitMember 0 (js "m2")]

/-- Somebody signs on without a second factor before the newest session is read. -/
def loginInBetween : List Act :=
  [.callback signOn (js "s1"), .readMembers 0, .pass 100001,
    .login (js "s2") (js "u1") false none, .readSession 0, .confirm 0]

/-- The account joins another organisation after its memberships were read. -/
def joinedInBetween : List Act :=
  [.callback signOn (js "s1"), .readMembers 0, .readInvitation 0,
    .addMember ⟨js "m3", js "o2", js "u1", js "editor"⟩, .commitMember 0 (js "m2")]

/-- A sign-on that makes a membership and confirms its session. -/
def undisturbedSignOn : List Act :=
  [.callback signOn (js "s1"), .readMembers 0, .readInvitation 0, .commitMember 0 (js "m2"),
    .readSession 0, .confirm 0]

end Klick.Sso.Provisioning
