-- Runs of a wallet organisation: what keeps an owner in it, and whom an acceptance
-- lets in. Both rules are checked on rows that were read before; they hold of the rows
-- that are written if no other transaction came in between.
import Klick.WalletMembers

open Js Interleaving

namespace Klick.WalletOrg

/-! ## The rules -/

/-- The organisation has an owner; every membership of an acceptance had a pending invitation of
its address that was not expired when it was committed; no invitation made two. -/
structure Sound (L : LowerCase) (w : World) : Prop where
  owner : ∃ r ∈ w.members, r.role = .owner
  invited : ∀ j ∈ w.joined, ∃ inv email, j.invitation = some inv ∧ inv.status = .pending ∧
    j.time ≤ inv.expiresAt ∧ w.accounts j.userId = some email ∧ L.lower inv.email = L.lower email
  once : (w.joined.map (·.invitationId)).Nodup

/-- No other transaction has come in between: a change that takes the role of an owner away is
committed only if none has been since it read the members; an acceptance that makes a membership
only if nothing has written the invitation since it read it, and the invitation is not expired. -/
def Undisturbed (w : World) : Act → Prop
  | .commitChange i => ∀ c ∈ w.changes[i]?, w.TakesOwner c → c.losses = w.losses
  | .commitAcceptance i _ => ∀ a ∈ w.acceptances[i]?, ¬ w.IsMember a.userId →
      a.reading.writes = (w.invitations a.invitationId).writes ∧
      ∀ inv ∈ (w.invitations a.invitationId).value, w.clock ≤ inv.expiresAt
  | _ => True

instance (w : World) (a : Act) : Decidable (Undisturbed w a) := by
  cases a <;> unfold Undisturbed <;> infer_instance

/-- Nobody is in the middle of anything, and no acceptance has been committed yet. -/
structure World.Fresh (w : World) : Prop where
  owner : ∃ r ∈ w.members, r.role = .owner
  ids : (w.members.map (·.id)).Nodup
  changes : w.changes = []
  acceptances : w.acceptances = []
  joined : w.joined = []

/-! ## Owners -/

/-- A role change that may go on leaves an owner: the member becomes or stays one, or another is. -/
def LeavesOwner (members : List MemberRow) (c : Change) : Prop :=
  c.next = some .owner ∨ ∃ r ∈ members, r.role = .owner ∧ r.id ≠ c.memberId

structure Owned (w : World) : Prop where
  owner : ∃ r ∈ w.members, r.role = .owner
  ids : (w.members.map (·.id)).Nodup
  changes : ∀ c ∈ w.changes, c.losses ≤ w.losses ∧
    (c.losses = w.losses → LeavesOwner w.members c)

/-- The check of a role change, on rows with an owner. -/
theorem leavesOwner_of_check {rows : List MemberRow} {memberId : Text} {next : Option MemberRole}
    {losses : ℕ} (howner : ∃ r ∈ rows, r.role = .owner) (hids : (rows.map (·.id)).Nodup)
    (hfound : rows.find? (fun r => r.id = memberId) ≠ none)
    (hcheck : ownerWouldVanish rows memberId next = false) :
    LeavesOwner rows ⟨memberId, next, losses⟩ := by
  obtain ⟨target, htarget⟩ := Option.ne_none_iff_exists'.mp hfound
  have hmem := List.mem_of_find?_eq_some htarget
  have hid : target.id = memberId := by simpa using List.find?_some htarget
  have hinj : ∀ r ∈ rows, r.id = memberId → r = target := fun r hr h =>
    List.inj_on_of_nodup_map hids hr hmem (h.trans hid.symm)
  unfold ownerWouldVanish at hcheck
  rw [htarget] at hcheck
  dsimp only at hcheck
  by_cases hgo : target.role ≠ .owner ∨ next = some .owner
  · rcases hgo with hrole | hnext
    · right
      obtain ⟨r, hr, hro⟩ := howner
      refine ⟨r, hr, hro, fun heq => hrole ?_⟩
      rw [← hinj r hr heq]
      exact hro
    · exact .inl hnext
  · rw [if_neg hgo, decide_eq_false_iff_not, Nat.not_le] at hcheck
    right
    by_contra hnone
    push Not at hnone
    have hall : ∀ r ∈ rows.filter (fun r => r.role = .owner), r = target := by
      intro r hr
      obtain ⟨hr, hro⟩ := List.mem_filter.mp hr
      exact hinj r hr (hnone r hr (of_decide_eq_true hro))
    have hnodup : (rows.filter fun r => r.role = .owner).Nodup := (hids.of_map _).filter _
    have hlen : (rows.filter fun r => r.role = .owner).length ≤ 1 := by
      have hsub : (rows.filter fun r => r.role = .owner) ⊆ [target] := fun r hr =>
        List.mem_singleton.mpr (hall r hr)
      exact (hnodup.subperm hsub).length_le
    omega

theorem LeavesOwner.mono {rows rows' : List MemberRow} {c : Change} (h : LeavesOwner rows c)
    (hsub : ∀ r ∈ rows, r.role = .owner → r.id ≠ c.memberId →
      ∃ r' ∈ rows', r'.role = .owner ∧ r'.id ≠ c.memberId) : LeavesOwner rows' c := by
  rcases h with h | ⟨r, hr, hro, hne⟩
  · exact .inl h
  · exact .inr (hsub r hr hro hne)

/-- Rows of owners that a change does not name stay. -/
theorem mem_changedRows_of_ne {w : World} {c : Change} {r : MemberRow} (hr : r ∈ w.members)
    (hne : r.id ≠ c.memberId) : r ∈ w.changedRows c := by
  unfold World.changedRows
  split
  · exact List.mem_map.mpr ⟨r, hr, if_neg hne⟩
  · exact List.mem_filter.mpr ⟨hr, by simpa using hne⟩

theorem ids_changedRows {w : World} (h : (w.members.map (·.id)).Nodup) (c : Change) :
    ((w.changedRows c).map (·.id)).Nodup := by
  unfold World.changedRows
  split
  · rename_i role _
    have hid : (w.members.map fun r => if r.id = c.memberId then { r with role := role } else r).map
        (·.id) = w.members.map (·.id) := by
      rw [List.map_map]
      apply List.map_congr_left
      intro r _
      by_cases hr : r.id = c.memberId <;> simp [hr]
    rwa [hid]
  · exact h.sublist (List.filter_sublist.map _)

/-- A change that takes no owner away keeps every owner. -/
theorem owner_of_not_takes {w : World} {c : Change} (h : ¬ w.TakesOwner c) {r : MemberRow}
    (hr : r ∈ w.members) (hro : r.role = .owner) :
    ∃ r' ∈ w.changedRows c, r'.role = .owner ∧ r'.id = r.id := by
  by_cases hid : r.id = c.memberId
  · have hnext : c.next = some .owner := by
      by_contra hne
      exact h ⟨hne, r, hr, hid, hro⟩
    unfold World.changedRows
    rw [hnext]
    refine ⟨{ r with role := .owner }, List.mem_map.mpr ⟨r, hr, ?_⟩, rfl, rfl⟩
    rw [if_pos hid]
  · exact ⟨r, mem_changedRows_of_ne hr hid, hro, rfl⟩

/-- New members take no owner away. -/
theorem Owned.grow {w w' : World} (h : Owned w) (hsub : ∀ r ∈ w.members, r ∈ w'.members)
    (hids : (w'.members.map (·.id)).Nodup) (hchanges : w'.changes = w.changes)
    (hlosses : w'.losses = w.losses) : Owned w' where
  owner := by
    obtain ⟨r, hr, hro⟩ := h.owner
    exact ⟨r, hsub r hr, hro⟩
  ids := hids
  changes c hc := by
    rw [hchanges] at hc
    rw [hlosses]
    obtain ⟨hle, hleave⟩ := h.changes c hc
    exact ⟨hle, fun heq => (hleave heq).mono fun r hr hro hne => ⟨r, hsub r hr, hro, hne⟩⟩

theorem Owned.afterChange {w : World} (h : Owned w) {i : ℕ} {c : Change}
    (hc : w.changes[i]? = some c) (hok : w.TakesOwner c → c.losses = w.losses) :
    Owned (w.afterChange i c) := by
  have hmem : c ∈ w.changes := List.mem_of_getElem? hc
  by_cases htakes : w.TakesOwner c
  · obtain ⟨-, hleave⟩ := h.changes c hmem
    have hother : ∃ r ∈ w.members, r.role = .owner ∧ r.id ≠ c.memberId :=
      (hleave (hok htakes)).resolve_left htakes.1
    obtain ⟨r, hr, hro, hne⟩ := hother
    refine ⟨⟨r, mem_changedRows_of_ne hr hne, hro⟩, ids_changedRows h.ids c, ?_⟩
    intro d hd
    have hle := (h.changes d (List.mem_of_mem_eraseIdx hd)).1
    simp only [World.afterChange, if_pos htakes]
    exact ⟨by omega, fun heq => by omega⟩
  · refine ⟨?_, ids_changedRows h.ids c, ?_⟩
    · obtain ⟨r, hr, hro⟩ := h.owner
      obtain ⟨r', hr', hro', -⟩ := owner_of_not_takes htakes hr hro
      exact ⟨r', hr', hro'⟩
    · intro d hd
      obtain ⟨hle, hleave⟩ := h.changes d (List.mem_of_mem_eraseIdx hd)
      simp only [World.afterChange, if_neg htakes]
      refine ⟨hle, fun heq => (hleave heq).mono fun r hr hro hne => ?_⟩
      obtain ⟨r', hr', hro', hid⟩ := owner_of_not_takes htakes hr hro
      exact ⟨r', hr', hro', hid ▸ hne⟩

theorem ids_append {rows : List MemberRow} (h : (rows.map (·.id)).Nodup) {row : MemberRow}
    (hfresh : ∀ r ∈ rows, r.id ≠ row.id) : ((rows ++ [row]).map (·.id)).Nodup := by
  rw [List.map_append, List.nodup_append]
  refine ⟨h, List.nodup_singleton _, ?_⟩
  intro a ha b hb heq
  obtain ⟨r, hr, rfl⟩ := List.mem_map.mp ha
  rw [List.map_cons, List.map_nil, List.mem_singleton] at hb
  exact hfresh r hr (heq.trans hb)

/-- **An undisturbed step keeps an owner.** -/
theorem Owned.step {L : LowerCase} {w w' : World} {a : Act} (h : Owned w)
    (hok : Undisturbed w a) (hstep : step L w a = some w') : Owned w' := by
  cases a with
  | tick t =>
    simp only [WalletOrg.step] at hstep
    split_ifs at hstep
    cases hstep
    exact h.grow (fun _ hr => hr) h.ids rfl rfl
  | readMembers memberId next =>
    simp only [WalletOrg.step] at hstep
    split_ifs at hstep with hfound hcheck
    · cases hstep
      exact h
    · cases hstep
      exact h
    · cases hstep
      refine ⟨h.owner, h.ids, ?_⟩
      intro c hc
      rcases List.mem_cons.mp hc with rfl | hc
      · exact ⟨le_rfl, fun _ => leavesOwner_of_check h.owner h.ids hfound
          (Bool.not_eq_true _ ▸ hcheck)⟩
      · exact h.changes c hc
  | commitChange i =>
    obtain ⟨c, hc, rfl⟩ := Option.map_eq_some_iff.mp hstep
    exact h.afterChange hc (hok c hc)
  | failChange i =>
    cases hstep
    exact ⟨h.owner, h.ids, fun c hc => h.changes c (List.mem_of_mem_eraseIdx hc)⟩
  | createInvitation id email role now =>
    simp only [WalletOrg.step] at hstep
    split_ifs at hstep
    cases hstep
    exact h.grow (fun _ hr => hr) h.ids rfl rfl
  | revokeInvitation id =>
    cases hstep
    exact h.grow (fun _ hr => hr) h.ids rfl rfl
  | expireInvitations now =>
    simp only [WalletOrg.step] at hstep
    split_ifs at hstep
    cases hstep
    exact h.grow (fun _ hr => hr) h.ids rfl rfl
  | readInvitation userId invitationId =>
    simp only [WalletOrg.step] at hstep
    split at hstep
    · split_ifs at hstep
      · cases hstep
        exact h
      · cases hstep
        exact h.grow (fun _ hr => hr) h.ids rfl rfl
    · cases hstep
      exact h
  | commitAcceptance i memberId =>
    simp only [WalletOrg.step] at hstep
    split_ifs at hstep with hfresh
    obtain ⟨a, ha, rfl⟩ := Option.map_eq_some_iff.mp hstep
    unfold World.afterAcceptance
    by_cases hm : w.IsMember a.userId
    · exact h.grow (by simp [hm]) (by simpa [hm] using h.ids) rfl rfl
    · push Not at hfresh
      refine h.grow ?_ ?_ rfl rfl
      · intro r hr
        simp [hm, hr]
      · simp only [if_neg hm]
        exact ids_append h.ids hfresh
  | failAcceptance i =>
    cases hstep
    exact h.grow (fun _ hr => hr) h.ids rfl rfl
  | addMember row =>
    simp only [WalletOrg.step] at hstep
    split_ifs at hstep with hfresh
    cases hstep
    push Not at hfresh
    refine h.grow (fun r hr => List.mem_append_left _ hr) ?_ rfl rfl
    exact ids_append h.ids fun r hr => (hfresh r hr).1

/-! ## Invitations -/

/-- The row is there and not pending; it never will be again. -/
def Settled (row : Option Invitation) : Prop := ∃ inv, row = some inv ∧ inv.status ≠ .pending

/-- An address that is the account's own. -/
def Addressed (L : LowerCase) (accounts : Text → Option Text) (userId : Text) (inv : Invitation) :
    Prop :=
  ∃ email, accounts userId = some email ∧ L.lower inv.email = L.lower email

structure Invited (L : LowerCase) (w : World) : Prop where
  acceptances : ∀ a ∈ w.acceptances, (w.invitations a.invitationId).Gave a.reading ∧
    ∃ inv, a.reading.value = some inv ∧ inv.status = .pending ∧ Addressed L w.accounts a.userId inv
  joined : ∀ j ∈ w.joined, ∃ inv, j.invitation = some inv ∧ inv.status = .pending ∧
    j.time ≤ inv.expiresAt ∧ Addressed L w.accounts j.userId inv
  settled : ∀ j ∈ w.joined, Settled (w.invitations j.invitationId).value
  once : (w.joined.map (·.invitationId)).Nodup

/-- A statement that leaves settled rows settled. -/
def KeepsSettled (f : Text → Option Invitation → Option (Option Invitation)) : Prop :=
  ∀ k row v, f k row = some v → Settled row → Settled v

theorem settled_writeWhere {m : Text → Place (Option Invitation)} {k : Text}
    {f : Text → Option Invitation → Option (Option Invitation)} (hf : KeepsSettled f)
    (h : Settled (m k).value) : Settled (writeWhere m f k).value := by
  unfold writeWhere
  split
  · rename_i v hv
    exact hf k _ v hv h
  · exact h

theorem closePending_keeps (p : Invitation → Bool) (status : InvitationStatus) :
    KeepsSettled (closePending p status) := by
  rintro k row v hv ⟨inv, rfl, hne⟩
  simp only [closePending, hne, decide_false, Bool.false_and] at hv
  cases hv

theorem revokedRow_keeps (invitationId : Text) : KeepsSettled (revokedRow invitationId) := by
  intro k row v hv
  unfold revokedRow at hv
  split_ifs at hv
  exact closePending_keeps _ _ k row v hv

/-- A step that writes invitations but makes no membership. -/
theorem Invited.keep {L : LowerCase} {w w' : World} (h : Invited L w)
    (haccounts : w'.accounts = w.accounts) (hjoined : w'.joined = w.joined)
    (hacceptances : ∀ a ∈ w'.acceptances, a ∈ w.acceptances)
    (hgave : ∀ k r, (w.invitations k).Gave r → (w'.invitations k).Gave r)
    (hsettled : ∀ k, Settled (w.invitations k).value → Settled (w'.invitations k).value) :
    Invited L w' where
  acceptances a ha := by
    rw [haccounts]
    obtain ⟨hg, hrow⟩ := h.acceptances a (hacceptances a ha)
    exact ⟨hgave _ _ hg, hrow⟩
  joined j hj := by
    rw [hjoined] at hj
    rw [haccounts]
    exact h.joined j hj
  settled j hj := by
    rw [hjoined] at hj
    exact hsettled _ (h.settled j hj)
  once := by
    rw [hjoined]
    exact h.once

theorem Invited.same {L : LowerCase} {w w' : World} (h : Invited L w)
    (haccounts : w'.accounts = w.accounts) (hjoined : w'.joined = w.joined)
    (hacceptances : ∀ a ∈ w'.acceptances, a ∈ w.acceptances)
    (hinvitations : w'.invitations = w.invitations) : Invited L w' :=
  h.keep haccounts hjoined hacceptances (fun _ _ hg => by rwa [hinvitations])
    (fun _ hs => by rwa [hinvitations])

theorem acceptedRow_keeps (invitationId userId : Text) (now : ℤ) :
    KeepsSettled (acceptedRow invitationId userId now) := by
  rintro k row v hv ⟨inv, rfl, hne⟩
  simp only [acceptedRow] at hv
  split_ifs at hv
  cases hv
  exact ⟨_, rfl, by simp⟩

theorem acceptedRow_settles {m : Text → Place (Option Invitation)} {id : Text} {inv : Invitation}
    (h : (m id).value = some inv) (userId : Text) (now : ℤ) :
    Settled (writeWhere m (acceptedRow id userId now) id).value := by
  unfold writeWhere
  rw [h]
  simp only [acceptedRow, if_true, Option.map_some]
  exact ⟨_, rfl, by simp⟩

/-- An acceptance whose invitation was not written since, and is not expired. -/
theorem Invited.afterAcceptance {L : LowerCase} {w : World} (h : Invited L w) {i : ℕ}
    {a : Acceptance} (memberId : Text) (ha : w.acceptances[i]? = some a)
    (hok : ¬ w.IsMember a.userId → a.reading.writes = (w.invitations a.invitationId).writes ∧
      ∀ inv, (w.invitations a.invitationId).value = some inv → w.clock ≤ inv.expiresAt) :
    Invited L (w.afterAcceptance i a memberId) := by
  have hmem : a ∈ w.acceptances := List.mem_of_getElem? ha
  have hgave : ∀ k r, (w.invitations k).Gave r →
      ((w.afterAcceptance i a memberId).invitations k).Gave r := fun k r hg => hg.writeWhere _
  have hsettled : ∀ k, Settled (w.invitations k).value →
      Settled ((w.afterAcceptance i a memberId).invitations k).value := fun k hs =>
    settled_writeWhere (acceptedRow_keeps _ _ _) hs
  by_cases hm : w.IsMember a.userId
  · refine h.keep rfl ?_ (fun b hb => List.mem_of_mem_eraseIdx hb) hgave hsettled
    simp only [World.afterAcceptance, if_pos hm]
  · obtain ⟨hg, inv, hinv, hpending, haddressed⟩ := h.acceptances a hmem
    obtain ⟨hcount, htime⟩ := hok hm
    have hrow : (w.invitations a.invitationId).value = some inv := by
      rw [hg.value_eq hcount, hinv]
    have hjoined : (w.afterAcceptance i a memberId).joined =
        w.joined ++ [⟨a.userId, a.invitationId, some inv, w.clock⟩] := by
      simp only [World.afterAcceptance, if_neg hm, hrow]
    refine ⟨?_, ?_, ?_, ?_⟩
    · intro b hb
      obtain ⟨hgb, hb'⟩ := h.acceptances b (List.mem_of_mem_eraseIdx hb)
      exact ⟨hgave _ _ hgb, hb'⟩
    · intro j hj
      rw [hjoined] at hj
      rcases List.mem_append.mp hj with hj | hj
      · exact h.joined j hj
      · rw [List.mem_singleton] at hj
        subst hj
        exact ⟨inv, rfl, hpending, htime inv hrow, haddressed⟩
    · intro j hj
      rw [hjoined] at hj
      rcases List.mem_append.mp hj with hj | hj
      · exact hsettled _ (h.settled j hj)
      · rw [List.mem_singleton] at hj
        subst hj
        exact acceptedRow_settles hrow _ _
    · rw [hjoined, List.map_append, List.nodup_append]
      refine ⟨h.once, List.nodup_singleton _, ?_⟩
      intro id hid id' hid' heq
      obtain ⟨j, hj, rfl⟩ := List.mem_map.mp hid
      rw [List.map_cons, List.map_nil, List.mem_singleton] at hid'
      subst hid'
      obtain ⟨inv', hinv', hne⟩ := h.settled j hj
      dsimp only at heq
      rw [heq, hrow] at hinv'
      cases hinv'
      exact hne hpending

/-- **An undisturbed step lets only invited accounts in.** -/
theorem Invited.step {L : LowerCase} {w w' : World} {a : Act} (h : Invited L w)
    (hok : Undisturbed w a) (hstep : step L w a = some w') : Invited L w' := by
  cases a with
  | tick t =>
    simp only [WalletOrg.step] at hstep
    split_ifs at hstep
    cases hstep
    exact h.same rfl rfl (fun _ ha => ha) rfl
  | readMembers memberId next =>
    simp only [WalletOrg.step] at hstep
    split_ifs at hstep
    · cases hstep
      exact h
    · cases hstep
      exact h
    · cases hstep
      exact h.same rfl rfl (fun _ ha => ha) rfl
  | commitChange i =>
    obtain ⟨c, hc, rfl⟩ := Option.map_eq_some_iff.mp hstep
    exact h.same rfl rfl (fun _ ha => ha) rfl
  | failChange i =>
    cases hstep
    exact h.same rfl rfl (fun _ ha => ha) rfl
  | createInvitation id email role now =>
    simp only [WalletOrg.step] at hstep
    split_ifs at hstep with hnew
    cases hstep
    refine h.keep rfl rfl (fun _ ha => ha) (fun k r hg => (hg.writeWhere _).writeAt _ _) ?_
    intro k hs
    have hk : k ≠ id := by
      rintro rfl
      obtain ⟨inv, hinv, -⟩ := hs
      rw [hnew.2] at hinv
      cases hinv
    dsimp only
    rw [writeAt_of_ne hk]
    exact settled_writeWhere (closePending_keeps _ _) hs
  | revokeInvitation id =>
    cases hstep
    exact h.keep rfl rfl (fun _ ha => ha) (fun k r hg => hg.writeWhere _) fun k hs =>
      settled_writeWhere (revokedRow_keeps id) hs
  | expireInvitations now =>
    simp only [WalletOrg.step] at hstep
    split_ifs at hstep
    cases hstep
    exact h.keep rfl rfl (fun _ ha => ha) (fun k r hg => hg.writeWhere _) fun k hs =>
      settled_writeWhere (closePending_keeps _ _) hs
  | readInvitation userId invitationId =>
    simp only [WalletOrg.step] at hstep
    split at hstep
    · rename_i email inv hemail hinv
      obtain ⟨hrow, hpending, -⟩ := openInvitation_eq_some.mp hinv
      split_ifs at hstep with haddress
      · cases hstep
        exact h
      · cases hstep
        refine ⟨?_, h.joined, h.settled, h.once⟩
        intro a ha
        rcases List.mem_cons.mp ha with rfl | ha
        · exact ⟨.refl _, inv, hrow, hpending, email, hemail, not_not.mp haddress⟩
        · exact h.acceptances a ha
    · cases hstep
      exact h
  | commitAcceptance i memberId =>
    simp only [WalletOrg.step] at hstep
    split_ifs at hstep
    obtain ⟨a, ha, rfl⟩ := Option.map_eq_some_iff.mp hstep
    exact h.afterAcceptance memberId ha (hok a ha)
  | failAcceptance i =>
    cases hstep
    exact h.same rfl rfl (fun _ ha => List.mem_of_mem_eraseIdx ha) rfl
  | addMember row =>
    simp only [WalletOrg.step] at hstep
    split_ifs at hstep
    cases hstep
    exact h.same rfl rfl (fun _ ha => ha) rfl

/-- **A wallet organisation keeps an owner and admits only invited accounts**, in every state of
every run in which no other transaction comes in between a reading and its writing. -/
theorem organisation_stays_sound (L : LowerCase) {start w : World} {as : List Act}
    (hstart : start.Fresh) (halong : Along (step L) Undisturbed start as)
    (hrun : run (step L) start as = some w) : Sound L w := by
  have hstartOwned : Owned start := ⟨hstart.owner, hstart.ids, by simp [hstart.changes]⟩
  have hstartInvited : Invited L start := by
    refine ⟨?_, ?_, ?_, ?_⟩ <;> simp [hstart.acceptances, hstart.joined]
  have hboth := run_keeps (I := fun w => Owned w ∧ Invited L w)
    (fun _ _ _ h hok hs => ⟨h.1.step hok hs, h.2.step hok hs⟩) ⟨hstartOwned, hstartInvited⟩
    halong hrun
  refine ⟨hboth.1.owner, ?_, hboth.2.once⟩
  intro j hj
  obtain ⟨inv, hinv, hpending, htime, email, hemail, heq⟩ := hboth.2.joined j hj
  exact ⟨inv, email, hinv, hpending, htime, hemail, heq⟩

/-! ## Two at once -/

/-- Two owners, and an open invitation for a third account. -/
def twoOwners : World where
  members := [⟨js "m1", js "u1", .owner⟩, ⟨js "m2", js "u2", .owner⟩]
  invitations k := if k = js "i1" then
      ⟨some ⟨js "x@a.de", .viewer, .pending, 1000, none, none⟩, 0⟩ else ⟨none, 0⟩
  accounts u := if u = js "u3" then some (js "X@a.de") else none
  clock := 0
  changes := []
  acceptances := []
  losses := 0
  joined := []

theorem twoOwners_fresh : twoOwners.Fresh where
  owner := ⟨_, List.mem_cons_self, rfl⟩
  ids := by decide
  changes := rfl
  acceptances := rfl
  joined := rfl

/-- Each of the owners makes the other a viewer: both have read two owners. -/
def bothDemoted : List Act :=
  [.readMembers (js "m1") (some .viewer), .readMembers (js "m2") (some .viewer),
    .commitChange 0, .commitChange 0]

/-- The invitation is revoked between its reading and the membership. -/
def revokedInBetween : List Act :=
  [.readInvitation (js "u3") (js "i1"), .revokeInvitation (js "i1"),
    .commitAcceptance 0 (js "m3")]

/-- No owner is left, and a revoked invitation makes a member. -/
theorem checks_pass_side_by_side :
    (∃ w, run (step asciiCase) twoOwners bothDemoted = some w ∧ ¬ Sound asciiCase w ∧
      w.members = [⟨js "m1", js "u1", .viewer⟩, ⟨js "m2", js "u2", .viewer⟩]) ∧
    ∃ w, run (step asciiCase) twoOwners revokedInBetween = some w ∧ ¬ Sound asciiCase w ∧
      w.joined = [⟨js "u3", js "i1",
        some ⟨js "x@a.de", .viewer, .revoked, 1000, none, none⟩, 0⟩] := by
  constructor
  · have hmembers : (run (step asciiCase) twoOwners bothDemoted).map (·.members) =
        some [⟨js "m1", js "u1", .viewer⟩, ⟨js "m2", js "u2", .viewer⟩] := by decide
    obtain ⟨w, hw, hrows⟩ := Option.map_eq_some_iff.mp hmembers
    refine ⟨w, hw, fun h => ?_, hrows⟩
    obtain ⟨r, hr, hro⟩ := h.owner
    rw [hrows] at hr
    simp only [List.mem_cons, List.not_mem_nil, or_false] at hr
    rcases hr with rfl | rfl <;> cases hro
  · have hjoined : (run (step asciiCase) twoOwners revokedInBetween).map (·.joined) =
        some [⟨js "u3", js "i1", some ⟨js "x@a.de", .viewer, .revoked, 1000, none, none⟩, 0⟩] := by
      decide
    obtain ⟨w, hw, hrows⟩ := Option.map_eq_some_iff.mp hjoined
    refine ⟨w, hw, fun h => ?_, hrows⟩
    obtain ⟨inv, -, hinv, hpending, -⟩ := h.invited _ (hrows ▸ List.mem_cons_self)
    cases hinv
    cases hpending

/-- One after the other: a demotion and an acceptance. -/
def oneAfterTheOther : List Act :=
  [.readMembers (js "m1") (some .viewer), .commitChange 0, .readInvitation (js "u3") (js "i1"),
    .commitAcceptance 0 (js "m3")]

theorem organisation_stays_sound_sample :
    ∃ w, run (step asciiCase) twoOwners oneAfterTheOther = some w ∧ Sound asciiCase w := by
  have hsome : (run (step asciiCase) twoOwners oneAfterTheOther).isSome = true := by
    decide
  obtain ⟨w, hw⟩ := Option.isSome_iff_exists.mp hsome
  refine ⟨w, hw, organisation_stays_sound asciiCase twoOwners_fresh ?_ hw⟩
  decide

end Klick.WalletOrg
