-- Runs of link registrations. A token is taken away without a look at whether it was
-- still there, and by the text of the cookie, while it is read by that text without
-- blanks: a link works once if every registration finds the row that it takes away.
import Klick.LinkRegistration
import Klick.Interleaving

open Js Interleaving

namespace Klick.PasskeyLinks

/-! ## The rules -/

/-- No token leads to two passkeys, none that was revoked to one, and an invitation to none of
an account that was there before. -/
structure Sound (w : World) : Prop where
  once : (w.completed.map (·.token)).Nodup
  kept : ∀ c ∈ w.completed, w.revoked c.token = false
  ownAccount : ∀ c ∈ w.completed, c.kind = .invite → c.userId ∉ c.before

section Runs

variable (L : LowerCase) (app : App) (hashOf : Text → Text)

/-- A registration takes away the row that it has read, and that is still there; when the links
of a subject are revoked, no registration is about to store a passkey for one of them; and when
a new link is stored, no other one of its subject is in force. -/
def Undisturbed (w : World) : Act → Prop
  | .consume i => ∀ r ∈ w.registrations[i]?, trim r.raw = r.raw ∧
      ∀ k ∈ rowOf app hashOf r.raw, (w.tokens k).isSome
  | .revoke kind subject => ∀ r ∈ w.registrations, r.holds kind subject = false
  | .replace row => ∀ r ∈ w.registrations, r.holds row.payload.kind row.payload.subject = false
  | .issue i _ => ∀ row ∈ w.issuing[i]?,
      (∀ r ∈ w.registrations, r.holds row.payload.kind row.payload.subject = false) ∧
      ∀ k ∈ w.issued, concerns row.payload.kind row.payload.subject (w.tokens k) = false
  | _ => True

instance (w : World) (a : Act) : Decidable (Undisturbed app hashOf w a) := by
  cases a <;> unfold Undisturbed <;> infer_instance

/-- Nothing is under way, and no passkey was stored yet. -/
structure World.Fresh (w : World) : Prop where
  stored : ∀ k, (w.tokens k).isSome → k ∈ w.issued
  revoked : ∀ k, w.revoked k = false
  registrations : w.registrations = []
  completed : w.completed = []

/-! ## What a registration does -/

/-- The token that a registration has taken away. -/
def taken (r : Registration) : Option Text :=
  match r.stage with
  | .consumed .. => rowOf app hashOf (trim r.raw)
  | _ => none

/-- A stage without a token taken away, and without a new account. -/
def Stage.Plain : Stage → Prop
  | .ready kind _ => kind ≠ .invite
  | .consumed .. => False
  | _ => True

/-- What one step of a registration can do. -/
inductive Effect (w : World) (i : ℕ) (r : Registration) (act : Act) : World → Prop
  | ends : Effect w i r act (w.drop i)
  | moves (stage : Stage) (htaken : taken app hashOf r = none) (hplain : stage.Plain) :
    Effect w i r act (w.setStage i r stage)
  | creates (kind : LinkKind) (id : Text) (db : Directory) (htaken : taken app hashOf r = none)
    (hnew : id ∉ w.ids) : Effect w i r act
      { w with
        db
        ids := id :: w.ids
        registrations := w.registrations.set i { r with stage := .ready kind id } }
  | consumes (j : ℕ) (kind : LinkKind) (userId : Text) (hact : act = .consume j)
    (hstage : r.stage = .ready kind userId) :
    Effect w i r act (w.consume app hashOf i r kind userId)
  | stores (kind : LinkKind) (userId : Text) (hstage : r.stage = .consumed kind userId) :
    Effect w i r act (w.store app hashOf i r kind userId)

variable {L app hashOf}

theorem effect_judged {w : World} {i : ℕ} {r : Registration} {act : Act} {p : LinkPayload}
    (htaken : taken app hashOf r = none) : Effect app hashOf w i r act (w.judged L i r p) := by
  unfold World.judged
  by_cases hid : r.userId ≠ p.subject
  · rw [if_pos hid]
    exact .ends
  · rw [if_neg hid]
    cases p with
    | invite id org email name =>
      dsimp only
      by_cases hexists : accountExists L w.db email
      · rw [if_pos hexists]
        exact .ends
      · rw [if_neg hexists]
        exact .moves _ htaken trivial
    | recover userId email name => exact .moves _ htaken (by simp [Stage.Plain, LinkPayload.kind])
    | activate userId email inv name =>
      exact .moves _ htaken (by simp [Stage.Plain, LinkPayload.kind])

theorem effect_createUser {w : World} {i : ℕ} {r : Registration} {act : Act} {p : LinkPayload}
    {id : Text} (htaken : taken app hashOf r = none) (hnew : id ∉ w.ids) :
    Effect app hashOf w i r act (w.createUser L i r p id) := by
  unfold World.createUser
  dsimp only
  split_ifs
  · exact .ends
  · exact .creates _ _ _ htaken hnew

/-- Every step of a registration is one of these. -/
theorem effect_of_step {w w' : World} {i : ℕ} {r : Registration} {act : Act}
    (h : stepRegistration L app hashOf w i r act = some w') : Effect app hashOf w i r act w' := by
  obtain ⟨raw, userId, before, stage⟩ := r
  unfold stepRegistration at h
  dsimp only at h
  split at h
  · cases h
    split_ifs
    · exact effect_judged rfl
    · exact .ends
  · cases h
    split
    · exact .moves _ rfl trivial
    · exact .ends
  · cases h
    split_ifs
    · exact .moves _ rfl trivial
    · exact .ends
  · split_ifs at h with hnew
    cases h
    exact effect_createUser rfl hnew
  · cases h
    exact .consumes _ _ _ rfl rfl
  · cases h
    exact .stores _ _ rfl
  · cases h
    exact .ends
  · cases h

/-! ## Tokens -/

variable (app hashOf) in
/-- Tokens that were taken away for a passkey. -/
def World.used (w : World) : List Text :=
  w.registrations.filterMap (taken app hashOf) ++ w.completed.map (·.token)

/-- Rows are of issued tokens; what was used or revoked has no row, nor will it have one. -/
structure Once (app : App) (hashOf : Text → Text) (w : World) : Prop where
  stored : ∀ k, (w.tokens k).isSome → k ∈ w.issued
  revoked : ∀ k, w.revoked k = true → w.tokens k = none ∧ k ∈ w.issued
  rows : ∀ r ∈ w.registrations, (rowOf app hashOf (trim r.raw)).isSome
  nodup : (w.used app hashOf).Nodup
  spent : ∀ k ∈ w.used app hashOf, w.tokens k = none ∧ k ∈ w.issued ∧ w.revoked k = false

/-- A step that leaves the tokens and uses none. -/
theorem Once.same {w w' : World} (h : Once app hashOf w) (htokens : w'.tokens = w.tokens)
    (hissued : w'.issued = w.issued) (hrevoked : w'.revoked = w.revoked)
    (hrows : ∀ r ∈ w'.registrations, (rowOf app hashOf (trim r.raw)).isSome)
    (hused : (w'.used app hashOf).Subperm (w.used app hashOf)) : Once app hashOf w' where
  stored := by
    rw [htokens, hissued]
    exact h.stored
  revoked := by
    rw [htokens, hissued, hrevoked]
    exact h.revoked
  rows := hrows
  nodup := by
    obtain ⟨l, hperm, hsub⟩ := hused
    exact hperm.nodup_iff.mp (h.nodup.sublist hsub)
  spent k hk := by
    rw [htokens, hissued, hrevoked]
    exact h.spent k (hused.subset hk)

/-- A step that leaves the registrations and what was completed. -/
theorem Once.apart {w w' : World} (h : Once app hashOf w) (htokens : w'.tokens = w.tokens)
    (hissued : w'.issued = w.issued) (hrevoked : w'.revoked = w.revoked)
    (hregistrations : w'.registrations = w.registrations) (hcompleted : w'.completed = w.completed) :
    Once app hashOf w' := by
  apply h.same htokens hissued hrevoked
  · rw [hregistrations]
    exact h.rows
  · unfold World.used
    rw [hregistrations, hcompleted]

/-- Where no registration is about to store a passkey, only rows are in force. -/
theorem inForce_of_none {w : World} {kind : LinkKind} {subject k : Text}
    (hnone : ∀ r ∈ w.registrations, r.holds kind subject = false)
    (h : w.inForce app hashOf kind subject k = true) :
    concerns kind subject (w.tokens k) = true := by
  unfold World.inForce at h
  rcases Bool.or_eq_true _ _ |>.mp h with h | h
  · exact h
  · obtain ⟨r, hr, hholds⟩ := List.any_eq_true.mp h
    rw [hnone r hr] at hholds
    cases hholds

@[simp] theorem concerns_none (kind : LinkKind) (subject : Text) :
    concerns kind subject none = false := rfl

theorem Once.without {w : World} (h : Once app hashOf w) {kind : LinkKind} {subject : Text}
    (hnone : ∀ r ∈ w.registrations, r.holds kind subject = false) :
    Once app hashOf (w.without app hashOf kind subject) where
  stored k hk := by
    apply h.stored k
    simp only [World.without] at hk
    split_ifs at hk
    · cases hk
    · exact hk
  revoked k hk := by
    rcases Bool.or_eq_true _ _ |>.mp hk with hk | hk
    · obtain ⟨hgone, hissued⟩ := h.revoked k hk
      simp [World.without, hgone, hissued]
    · have hrow := inForce_of_none hnone hk
      have hsome : (w.tokens k).isSome := by
        cases hw : w.tokens k with
        | none => simp [hw] at hrow
        | some row => rfl
      exact ⟨if_pos hrow, h.stored k hsome⟩
  rows := h.rows
  nodup := h.nodup
  spent k hk := by
    obtain ⟨hgone, hissued, hkept⟩ := h.spent k hk
    have hnot : w.inForce app hashOf kind subject k = false := by
      by_contra hin
      have := inForce_of_none hnone (Bool.not_eq_false _ ▸ hin)
      rw [hgone] at this
      cases this
    refine ⟨?_, hissued, ?_⟩
    · simp [World.without, hgone]
    · simp [World.without, hkept, hnot]

/-- A new link, where no other one of its subject is in force. -/
theorem Once.issue {w : World} (h : Once app hashOf w) {row : TokenRow} {k : Text}
    (hnew : k ∉ w.issued)
    (hnone : ∀ r ∈ w.registrations, r.holds row.payload.kind row.payload.subject = false)
    (hrows : ∀ k ∈ w.issued, concerns row.payload.kind row.payload.subject (w.tokens k) = false)
    (issuing : List TokenRow) :
    Once app hashOf { w with
      tokens := Function.update w.tokens k (some row)
      issued := k :: w.issued
      revoked := fun j => w.revoked j ||
        w.inForce app hashOf row.payload.kind row.payload.subject j
      issuing } := by
  have hrevoked : ∀ j, (w.revoked j ||
      w.inForce app hashOf row.payload.kind row.payload.subject j) = w.revoked j := by
    intro j
    by_cases hin : w.inForce app hashOf row.payload.kind row.payload.subject j = true
    · have hrow := inForce_of_none hnone hin
      have hsome : (w.tokens j).isSome := by
        cases hw : w.tokens j with
        | none => simp [hw] at hrow
        | some r => rfl
      rw [hrows j (h.stored j hsome)] at hrow
      cases hrow
    · rw [Bool.not_eq_true _ |>.mp hin, Bool.or_false]
  refine ⟨?_, ?_, h.rows, h.nodup, ?_⟩
  · intro j hj
    by_cases hjk : j = k
    · exact hjk ▸ List.mem_cons_self
    · dsimp only at hj
      rw [Function.update_of_ne hjk] at hj
      exact List.mem_cons_of_mem _ (h.stored j hj)
  · intro j hj
    dsimp only at hj ⊢
    rw [hrevoked] at hj
    obtain ⟨hgone, hissued⟩ := h.revoked j hj
    have hjk : j ≠ k := fun heq => hnew (heq ▸ hissued)
    rw [Function.update_of_ne hjk]
    exact ⟨hgone, List.mem_cons_of_mem _ hissued⟩
  · intro j hj
    obtain ⟨hgone, hissued, hkept⟩ := h.spent j hj
    have hjk : j ≠ k := fun heq => hnew (heq ▸ hissued)
    dsimp only
    rw [Function.update_of_ne hjk, hrevoked]
    exact ⟨hgone, List.mem_cons_of_mem _ hissued, hkept⟩

/-- A new name is written into a row that is there. -/
theorem Once.rename {w : World} (h : Once app hashOf w) (k : Text) (f : TokenRow → TokenRow)
    (naming : List (Text × LinkPayload × Text)) :
    Once app hashOf { w with
      tokens := Function.update w.tokens k ((w.tokens k).map f)
      naming } := by
  have hnone : ∀ j, Function.update w.tokens k ((w.tokens k).map f) j = none ↔
      w.tokens j = none := by
    intro j
    by_cases hjk : j = k
    · subst hjk
      simp
    · rw [Function.update_of_ne hjk]
  refine ⟨?_, ?_, h.rows, h.nodup, ?_⟩
  · intro j hj
    apply h.stored j
    rw [Option.isSome_iff_ne_none] at hj ⊢
    exact fun hgone => hj ((hnone j).mpr hgone)
  · intro j hj
    obtain ⟨hgone, hissued⟩ := h.revoked j hj
    exact ⟨(hnone j).mpr hgone, hissued⟩
  · intro j hj
    obtain ⟨hgone, hrest⟩ := h.spent j hj
    exact ⟨(hnone j).mpr hgone, hrest⟩

/-! ## Registrations and their tokens -/

variable (app hashOf) in
/-- The tokens of all registrations, one of them apart. -/
theorem taken_perm {regs : List Registration} {i : ℕ} {r : Registration} (hr : regs[i]? = some r) :
    (regs.filterMap (taken app hashOf)).Perm
      ((taken app hashOf r).toList ++ (regs.eraseIdx i).filterMap (taken app hashOf)) := by
  obtain ⟨hi, rfl⟩ := List.getElem?_eq_some_iff.mp hr
  have hperm := (List.getElem_cons_eraseIdx_perm hi).symm.filterMap (taken app hashOf)
  refine hperm.trans ?_
  rw [List.filterMap_cons]
  cases taken app hashOf regs[i] <;> rfl

variable (app hashOf) in
theorem taken_set_perm {regs : List Registration} {i : ℕ} {r : Registration}
    (hr : regs[i]? = some r) (r' : Registration) :
    ((regs.set i r').filterMap (taken app hashOf)).Perm
      ((taken app hashOf r').toList ++ (regs.eraseIdx i).filterMap (taken app hashOf)) := by
  obtain ⟨hi, -⟩ := List.getElem?_eq_some_iff.mp hr
  have hperm := (List.set_perm_cons_eraseIdx hi r').filterMap (taken app hashOf)
  refine hperm.trans ?_
  rw [List.filterMap_cons]
  cases taken app hashOf r' <;> rfl

/-- A registration that has not taken its token away goes on without it. -/
theorem used_set {w : World} {i : ℕ} {r r' : Registration} (hr : w.registrations[i]? = some r)
    (htaken : taken app hashOf r = none) (htaken' : taken app hashOf r' = none) :
    ((w.registrations.set i r').filterMap (taken app hashOf) ++ w.completed.map (·.token)).Subperm
      (w.used app hashOf) := by
  have hset := taken_set_perm app hashOf hr r'
  have hall := taken_perm app hashOf hr
  rw [htaken'] at hset
  rw [htaken] at hall
  exact ((hset.trans hall.symm).append_right _).subperm

theorem rows_set {regs : List Registration} {i : ℕ} {r : Registration} (hr : regs[i]? = some r)
    (h : ∀ r ∈ regs, (rowOf app hashOf (trim r.raw)).isSome) (stage : Stage) :
    ∀ x ∈ regs.set i { r with stage }, (rowOf app hashOf (trim x.raw)).isSome := by
  intro x hx
  rcases List.mem_or_eq_of_mem_set hx with hx | rfl
  · exact h x hx
  · exact h r (List.mem_of_getElem? hr)

theorem taken_plain {r : Registration} {stage : Stage} (h : stage.Plain) :
    taken app hashOf { r with stage } = none := by
  cases stage <;> first | rfl | exact h.elim

/-- The row of a token that is still there is taken away. -/
theorem Once.consume {w : World} (h : Once app hashOf w) {i : ℕ} {r : Registration}
    {kind : LinkKind} {userId : Text} (hr : w.registrations[i]? = some r)
    (hstage : r.stage = .ready kind userId) (hraw : trim r.raw = r.raw)
    (hthere : ∀ k ∈ rowOf app hashOf r.raw, (w.tokens k).isSome) :
    Once app hashOf (w.consume app hashOf i r kind userId) := by
  have hrow := h.rows r (List.mem_of_getElem? hr)
  obtain ⟨k, hk⟩ := Option.isSome_iff_exists.mp hrow
  have hkraw : rowOf app hashOf r.raw = some k := hraw ▸ hk
  have hsome := hthere k hkraw
  have hunused : k ∉ w.used app hashOf := by
    intro hin
    rw [(h.spent k hin).1] at hsome
    cases hsome
  have htaken : taken app hashOf r = none := by
    unfold taken
    rw [hstage]
  have hperm : ((w.consume app hashOf i r kind userId).used app hashOf).Perm
      (k :: w.used app hashOf) := by
    have hset := taken_set_perm app hashOf hr
      { r with stage := .consumed kind userId }
    have hall := taken_perm app hashOf hr
    rw [htaken] at hall
    have hnew : taken app hashOf { r with stage := .consumed kind userId } = some k := hk
    rw [hnew] at hset
    exact (hset.trans (hall.symm.cons k)).append_right _
  have htokens : ∀ j, (w.consume app hashOf i r kind userId).tokens j =
      if k = j then none else w.tokens j := by
    intro j
    simp only [World.consume, hkraw, Option.some.injEq]
  refine ⟨?_, ?_, rows_set hr h.rows _, ?_, ?_⟩
  · intro j hj
    apply h.stored j
    rw [htokens] at hj
    split_ifs at hj
    · cases hj
    · exact hj
  · intro j hj
    obtain ⟨hgone, hissued⟩ := h.revoked j hj
    refine ⟨?_, hissued⟩
    rw [htokens, hgone, ite_self]
  · exact hperm.nodup_iff.mpr (List.nodup_cons.mpr ⟨hunused, h.nodup⟩)
  · intro j hj
    rw [htokens]
    rcases List.mem_cons.mp (hperm.mem_iff.mp hj) with rfl | hj
    · refine ⟨if_pos rfl, h.stored j hsome, ?_⟩
      by_contra hrevoked
      have := (h.revoked j (Bool.not_eq_false _ ▸ hrevoked)).1
      rw [this] at hsome
      cases hsome
    · obtain ⟨hgone, hissued, hkept⟩ := h.spent j hj
      exact ⟨by rw [hgone, ite_self], hissued, hkept⟩

/-- The token of a stored passkey was taken away before. -/
theorem Once.store {w : World} (h : Once app hashOf w) {i : ℕ} {r : Registration}
    {kind : LinkKind} {userId : Text} (hr : w.registrations[i]? = some r)
    (hstage : r.stage = .consumed kind userId) :
    Once app hashOf (w.store app hashOf i r kind userId) := by
  have hrow := h.rows r (List.mem_of_getElem? hr)
  obtain ⟨k, hk⟩ := Option.isSome_iff_exists.mp hrow
  have htaken : taken app hashOf r = some k := by
    unfold taken
    rw [hstage]
    exact hk
  refine h.same rfl rfl rfl ?_ ?_
  · exact fun x hx => h.rows x (List.mem_of_mem_eraseIdx hx)
  · have hall := taken_perm app hashOf hr
    rw [htaken] at hall
    have hperm : ((w.store app hashOf i r kind userId).used app hashOf).Perm
        (w.used app hashOf) := by
      simp only [World.used, World.store, List.map_cons, hk, Option.getD_some]
      refine List.perm_middle.trans ?_
      exact (hall.symm.append_right (w.completed.map (·.token)))
    exact hperm.subperm

/-- **An undisturbed step of a registration uses each token once.** -/
theorem Once.effect {w w' : World} (h : Once app hashOf w) {i : ℕ} {r : Registration} {act : Act}
    (hr : w.registrations[i]? = some r) (he : Effect app hashOf w i r act w')
    (hok : ∀ j, act = .consume j → trim r.raw = r.raw ∧
      ∀ k ∈ rowOf app hashOf r.raw, (w.tokens k).isSome) : Once app hashOf w' := by
  cases he with
  | ends =>
    refine h.same rfl rfl rfl ?_ ?_
    · exact fun x hx => h.rows x (List.mem_of_mem_eraseIdx hx)
    · exact ((List.eraseIdx_sublist _ _).filterMap _ |>.append_right _).subperm
  | moves stage htaken hplain =>
    exact h.same rfl rfl rfl (rows_set hr h.rows _) (used_set hr htaken (taken_plain hplain))
  | creates kind id db htaken hnew =>
    exact h.same rfl rfl rfl (rows_set hr h.rows _) (used_set hr htaken rfl)
  | consumes j kind userId hact hstage =>
    obtain ⟨hraw, hthere⟩ := hok j hact
    exact h.consume hr hstage hraw hthere
  | stores kind userId hstage => exact h.store hr hstage

/-! ## Accounts -/

/-- A registration on an invitation stores its passkey for an account of its own. -/
structure OwnAccount (ids : List Text) (r : Registration) : Prop where
  before : ∀ id ∈ r.before, id ∈ ids
  made : ∀ userId, r.stage = .ready .invite userId ∨ r.stage = .consumed .invite userId →
    userId ∉ r.before

structure Accounts (w : World) : Prop where
  registrations : ∀ r ∈ w.registrations, OwnAccount w.ids r
  completed : ∀ c ∈ w.completed, c.kind = .invite → c.userId ∉ c.before

theorem OwnAccount.mono {ids ids' : List Text} {r : Registration} (h : OwnAccount ids r)
    (hsub : ∀ id ∈ ids, id ∈ ids') : OwnAccount ids' r where
  before id hid := hsub id (h.before id hid)
  made := h.made

/-- Accounts are only added, and no registration is. -/
theorem Accounts.keep {w w' : World} (h : Accounts w) (hids : ∀ id ∈ w.ids, id ∈ w'.ids)
    (hregistrations : ∀ r ∈ w'.registrations, r ∈ w.registrations)
    (hcompleted : w'.completed = w.completed) : Accounts w' where
  registrations r hr := (h.registrations r (hregistrations r hr)).mono hids
  completed := by
    rw [hcompleted]
    exact h.completed

/-- One registration goes on. -/
theorem Accounts.set {w w' : World} (h : Accounts w) {i : ℕ} {r' : Registration}
    (hids : ∀ id ∈ w.ids, id ∈ w'.ids) (hregistrations : w'.registrations = w.registrations.set i r')
    (hown : OwnAccount w'.ids r') (hcompleted : w'.completed = w.completed) : Accounts w' where
  registrations r hr := by
    rw [hregistrations] at hr
    rcases List.mem_or_eq_of_mem_set hr with hr | rfl
    · exact (h.registrations r hr).mono hids
    · exact hown
  completed := by
    rw [hcompleted]
    exact h.completed

theorem Stage.Plain.not_made {stage : Stage} (h : stage.Plain) (userId : Text) :
    ¬ (stage = .ready .invite userId ∨ stage = .consumed .invite userId) := by
  rintro (rfl | rfl)
  · exact h rfl
  · exact h

/-- **A registration on an invitation has an account of its own**, whatever others do. -/
theorem Accounts.effect {w w' : World} (h : Accounts w) {i : ℕ} {r : Registration} {act : Act}
    (hr : w.registrations[i]? = some r) (he : Effect app hashOf w i r act w') : Accounts w' := by
  have hown := h.registrations r (List.mem_of_getElem? hr)
  cases he with
  | ends => exact h.keep (fun _ hid => hid) (fun _ hx => List.mem_of_mem_eraseIdx hx) rfl
  | moves stage htaken hplain =>
    refine h.set (fun _ hid => hid) rfl ⟨hown.before, ?_⟩ rfl
    exact fun userId hmade => (hplain.not_made userId hmade).elim
  | creates kind id db htaken hnew =>
    refine h.set (fun _ hid => List.mem_cons_of_mem _ hid) rfl ?_ rfl
    refine ⟨fun j hj => List.mem_cons_of_mem _ (hown.before j hj), ?_⟩
    rintro userId (hmade | hmade)
    · cases hmade
      exact fun hid => hnew (hown.before _ hid)
    · cases hmade
  | consumes j kind userId hact hstage =>
    refine h.set (fun _ hid => hid) rfl ⟨hown.before, ?_⟩ rfl
    rintro user (hmade | hmade)
    · cases hmade
    · cases hmade
      exact hown.made _ (.inl hstage)
  | stores kind userId hstage =>
    refine ⟨fun x hx => h.registrations x (List.mem_of_mem_eraseIdx hx), ?_⟩
    intro c hc hkind
    rcases List.mem_cons.mp hc with rfl | hc
    · dsimp only at hkind
      exact hown.made _ (.inr (hkind ▸ hstage))
    · exact h.completed c hc hkind

/-! ## Runs -/

theorem readToken_row {w : World} {raw : Text} {row : TokenRow}
    (h : readToken app hashOf w raw = some row) : (rowOf app hashOf raw).isSome := by
  unfold readToken at h
  unfold rowOf
  split at h
  · cases h
  · rename_i kind hkind
    rw [hkind]
    rfl

theorem Once.registrationStep {w w' : World} (h : Once app hashOf w ∧ Accounts w) {i : ℕ}
    {act : Act} (hstep : w.registrationStep L app hashOf i act = some w')
    (hok : ∀ r, w.registrations[i]? = some r → ∀ j, act = .consume j → trim r.raw = r.raw ∧
      ∀ k ∈ rowOf app hashOf r.raw, (w.tokens k).isSome) : Once app hashOf w' ∧ Accounts w' := by
  obtain ⟨r, hr, hstage⟩ := Option.bind_eq_some_iff.mp hstep
  have he := effect_of_step hstage
  exact ⟨h.1.effect hr he (hok r hr), h.2.effect hr he⟩

/-- **An undisturbed step of anybody keeps links single.** -/
theorem Once.step {w w' : World} {a : Act} (h : Once app hashOf w ∧ Accounts w)
    (hok : Undisturbed app hashOf w a) (hstep : step L app hashOf w a = some w') :
    Once app hashOf w' ∧ Accounts w' := by
  have hself : ∀ id ∈ w.ids, id ∈ w.ids := fun _ hid => hid
  have hregs : ∀ r ∈ w.registrations, r ∈ w.registrations := fun _ hr => hr
  cases a with
  | tick t =>
    simp only [PasskeyLinks.step] at hstep
    split_ifs at hstep
    cases hstep
    exact ⟨h.1.apart rfl rfl rfl rfl rfl, h.2.keep hself hregs rfl⟩
  | directory db =>
    cases hstep
    refine ⟨h.1.apart rfl rfl rfl rfl rfl, h.2.keep ?_ hregs rfl⟩
    exact fun _ hid => List.mem_append_right _ hid
  | revoke kind subject =>
    cases hstep
    exact ⟨h.1.without hok, h.2.keep hself hregs rfl⟩
  | replace row =>
    cases hstep
    exact ⟨(h.1.without hok).apart rfl rfl rfl rfl rfl, h.2.keep hself hregs rfl⟩
  | issue i raw =>
    simp only [PasskeyLinks.step] at hstep
    split at hstep
    · rename_i row k hrow hk
      split_ifs at hstep with hnew
      push Not at hnew
      cases hstep
      obtain ⟨hnone, hrows⟩ := hok row hrow
      exact ⟨h.1.issue hnew.1 hnone hrows _, h.2.keep hself hregs rfl⟩
    · cases hstep
  | readName raw name =>
    cases hstep
    split
    · exact ⟨h.1.apart rfl rfl rfl rfl rfl, h.2.keep hself hregs rfl⟩
    · exact h
  | writeName i =>
    obtain ⟨n, -, rfl⟩ := Option.map_eq_some_iff.mp hstep
    exact ⟨h.1.rename n.1 _ _, h.2.keep hself hregs rfl⟩
  | begin raw userId =>
    cases hstep
    split
    · rename_i row hrow
      constructor
      · refine h.1.same rfl rfl rfl ?_ (List.Subperm.refl _)
        intro r hr
        rcases List.mem_cons.mp hr with rfl | hr
        · exact readToken_row hrow
        · exact h.1.rows r hr
      · refine ⟨?_, h.2.completed⟩
        intro r hr
        rcases List.mem_cons.mp hr with rfl | hr
        · exact ⟨hself, fun u hu => by rcases hu with hu | hu <;> cases hu⟩
        · exact h.2.registrations r hr
    · exact h
  | consume i =>
    exact Once.registrationStep h hstep fun r hr _ _ => hok r hr
  | judge i keyAllowed => exact Once.registrationStep h hstep fun _ _ _ heq => nomatch heq
  | reread i => exact Once.registrationStep h hstep fun _ _ _ heq => nomatch heq
  | recheck i => exact Once.registrationStep h hstep fun _ _ _ heq => nomatch heq
  | createUser i id => exact Once.registrationStep h hstep fun _ _ _ heq => nomatch heq
  | store i => exact Once.registrationStep h hstep fun _ _ _ heq => nomatch heq
  | fail i => exact Once.registrationStep h hstep fun _ _ _ heq => nomatch heq

/-- **A registration link works once and for one account**, in every state of every run in which
each registration takes away a row that is there, under its own text, and no link is revoked or
replaced while a passkey is stored on it. -/
theorem links_work_once {start w : World} {as : List Act} (hstart : start.Fresh)
    (halong : Along (PasskeyLinks.step L app hashOf) (Undisturbed app hashOf) start as)
    (hrun : run (PasskeyLinks.step L app hashOf) start as = some w) : Sound w := by
  have hused : start.used app hashOf = [] := by
    simp [World.used, hstart.registrations, hstart.completed]
  have honce : Once app hashOf start := by
    refine ⟨hstart.stored, ?_, ?_, ?_, ?_⟩ <;>
      simp [hused, hstart.revoked, hstart.registrations]
  have haccounts : Accounts start := by
    refine ⟨?_, ?_⟩ <;> simp [hstart.registrations, hstart.completed]
  have hboth := run_keeps (fun _ _ _ h hok hs => Once.step h hok hs) ⟨honce, haccounts⟩ halong hrun
  refine ⟨?_, ?_, hboth.2.completed⟩
  · exact (List.nodup_append.mp hboth.1.nodup).2.1
  · intro c hc
    exact (hboth.1.spent _ (List.mem_append_right _ (List.mem_map_of_mem hc))).2.2

end Runs

/-! ## Two at once -/

/-- One account, without links. -/
def oneAccount : World where
  tokens _ := none
  db := { users := [⟨js "u1", js "a@b.de", js "A", false, none⟩], invitations := fun _ => none }
  ids := [js "u1"]
  clock := 0
  issuing := []
  naming := []
  registrations := []
  issued := []
  revoked _ := false
  completed := []

theorem oneAccount_fresh : oneAccount.Fresh where
  stored _ h := nomatch h
  revoked _ := rfl
  registrations := rfl
  completed := rfl

/-- A link for a new passkey of the account. -/
def recoveryRow : TokenRow := ⟨.recover (js "u1") (js "a@b.de") none, 1000⟩

def recoveryToken : Text := js "kwl_recover_x"

def linkHandedOut : List Act := [.replace recoveryRow, .issue 0 recoveryToken]

/-- Both have read the token before one of them takes it away. -/
def usedTwice : List Act :=
  linkHandedOut ++ [.begin recoveryToken (js "u1"), .begin recoveryToken (js "u1"), .judge 0 true,
    .judge 1 true, .consume 0, .store 0, .consume 0, .store 0]

/-- One after the other, but the first cookie ends in a blank. -/
def usedTwiceWithBlank : List Act :=
  linkHandedOut ++ [.begin (recoveryToken ++ js " ") (js "u1"), .judge 0 true, .consume 0,
    .store 0, .begin recoveryToken (js "u1"), .judge 0 true, .consume 0, .store 0]

/-- The link is revoked while a registration on it goes on. -/
def revokedWhileUsed : List Act :=
  linkHandedOut ++ [.begin recoveryToken (js "u1"), .judge 0 true, .revoke .recover (js "u1"),
    .consume 0, .store 0]

/-- The row of a token, where the hash of a text is the text. -/
def recoveryName : Text := js "link-recover:kwl_recover_x"

theorem not_sound_of_twice {w : World} {k : Text} (h : w.completed.map (·.token) = [k, k]) :
    ¬ Sound w := by
  intro hsound
  have hnodup := hsound.once
  rw [h] at hnodup
  simp at hnodup

/-- A link makes two passkeys, side by side and one after the other; a revoked one makes one. -/
theorem links_work_twice :
    (∃ w, run (step asciiCase wallet id) oneAccount usedTwice = some w ∧ ¬ Sound w ∧
      w.completed.map (·.token) = [recoveryName, recoveryName]) ∧
    (∃ w, run (step asciiCase wallet id) oneAccount usedTwiceWithBlank = some w ∧ ¬ Sound w ∧
      w.completed.map (·.token) = [recoveryName, recoveryName]) ∧
    ∃ w, run (step asciiCase wallet id) oneAccount revokedWhileUsed = some w ∧ ¬ Sound w ∧
      w.completed.map (fun c => (c.token, w.revoked c.token)) = [(recoveryName, true)] := by
  refine ⟨?_, ?_, ?_⟩
  · have htokens : (run (step asciiCase wallet id) oneAccount usedTwice).map
        (·.completed.map (·.token)) = some [recoveryName, recoveryName] := by decide +kernel
    obtain ⟨w, hw, hrows⟩ := Option.map_eq_some_iff.mp htokens
    exact ⟨w, hw, not_sound_of_twice hrows, hrows⟩
  · have htokens : (run (step asciiCase wallet id) oneAccount usedTwiceWithBlank).map
        (·.completed.map (·.token)) = some [recoveryName, recoveryName] := by decide +kernel
    obtain ⟨w, hw, hrows⟩ := Option.map_eq_some_iff.mp htokens
    exact ⟨w, hw, not_sound_of_twice hrows, hrows⟩
  · have htokens : (run (step asciiCase wallet id) oneAccount revokedWhileUsed).map
        (fun w => w.completed.map fun c => (c.token, w.revoked c.token)) =
          some [(recoveryName, true)] := by decide +kernel
    obtain ⟨w, hw, hrows⟩ := Option.map_eq_some_iff.mp htokens
    refine ⟨w, hw, fun h => ?_, hrows⟩
    obtain ⟨c, hc⟩ := List.map_eq_singleton_iff.mp hrows
    have hkept := h.kept c (hc.1 ▸ List.mem_singleton_self c)
    have hrevoked := (Prod.mk.inj hc.2).2
    rw [hkept] at hrevoked
    cases hrevoked

/-- A link that is used once. -/
def usedOnce : List Act :=
  linkHandedOut ++ [.begin recoveryToken (js "u1"), .judge 0 true, .consume 0, .store 0]

theorem links_work_once_sample :
    ∃ w, run (step asciiCase wallet id) oneAccount usedOnce = some w ∧ Sound w := by
  have hsome : (run (step asciiCase wallet id) oneAccount usedOnce).isSome = true := by
    decide +kernel
  obtain ⟨w, hw⟩ := Option.isSome_iff_exists.mp hsome
  refine ⟨w, hw, links_work_once oneAccount_fresh ?_ hw⟩
  decide +kernel

end Klick.PasskeyLinks
