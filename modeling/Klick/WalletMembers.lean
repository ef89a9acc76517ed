-- Members and invitations of an organisation of both.money
-- (`apps/wallet/lib/orgs/members.ts`, `apps/wallet/lib/orgs/invitations.ts`,
-- `openInvitation` of `apps/wallet/lib/auth/links.ts`): transactions at READ COMMITTED,
-- which read first and write when they are committed.
import Klick.Interleaving
import Klick.LowerCase

open Js Interleaving

namespace Klick.WalletOrg

/-! ## Rows -/

/-- `MEMBER_ROLES` -/
inductive MemberRole
  | owner | operator | viewer
deriving DecidableEq, Repr

/-- `INVITATION_STATUS` -/
inductive InvitationStatus
  | pending | accepted | revoked | expired
deriving DecidableEq, Repr

structure MemberRow where
  id : Text
  userId : Text
  role : MemberRole
deriving DecidableEq, Repr

structure Invitation where
  email : Text
  role : MemberRole
  status : InvitationStatus
  expiresAt : ℤ
  acceptedAt : Option ℤ
  acceptedBy : Option Text
deriving DecidableEq, Repr

/-- `INVITE_TTL_MS` -/
def inviteTtlMs : ℤ := 72 * 60 * 60 * 1000

/-- `ownerWouldVanish`; without a next role the member is removed. -/
def ownerWouldVanish (rows : List MemberRow) (memberId : Text) (nextRole : Option MemberRole) :
    Bool :=
  match rows.find? fun r => r.id = memberId with
  | none => false
  | some target =>
    if target.role ≠ .owner ∨ nextRole = some .owner then false
    else (rows.filter fun r => r.role = .owner).length ≤ 1

/-- What `openInvitation` gives: the row, if it is pending and not expired. -/
def openInvitation (row : Option Invitation) (now : ℤ) : Option Invitation :=
  match row with
  | some inv => if inv.status ≠ .pending ∨ inv.expiresAt < now then none else some inv
  | none => none

theorem openInvitation_eq_some {row : Option Invitation} {now : ℤ} {inv : Invitation} :
    openInvitation row now = some inv ↔
      row = some inv ∧ inv.status = .pending ∧ now ≤ inv.expiresAt := by
  unfold openInvitation
  cases row with
  | none => simp
  | some i =>
    dsimp only
    split_ifs with h
    · constructor
      · intro h'
        cases h'
      · rintro ⟨heq, hp, hle⟩
        cases heq
        rcases h with h | h
        · exact absurd hp h
        · omega
    · push Not at h
      constructor
      · intro heq
        cases heq
        exact ⟨rfl, h⟩
      · rintro ⟨heq, -⟩
        exact heq

/-! ## The organisation -/

/-- A role change or removal that has read the members and may go on. -/
structure Change where
  memberId : Text
  next : Option MemberRole
  /-- How often an owner had been taken away when it read. -/
  losses : ℕ

/-- An acceptance that has read the invitation and found the address to be its own. -/
structure Acceptance where
  userId : Text
  invitationId : Text
  role : MemberRole
  reading : Place (Option Invitation)

/-- A membership made by an acceptance: the invitation as it was then. -/
structure Joined where
  userId : Text
  invitationId : Text
  invitation : Option Invitation
  time : ℤ
deriving DecidableEq

/-- One organisation, and the accounts by their addresses. -/
structure World where
  members : List MemberRow
  invitations : Text → Place (Option Invitation)
  accounts : Text → Option Text
  clock : ℤ
  changes : List Change
  acceptances : List Acceptance
  losses : ℕ
  joined : List Joined

namespace World

/-- The change takes the role of an owner away. -/
def TakesOwner (w : World) (c : Change) : Prop :=
  c.next ≠ some .owner ∧ ∃ r ∈ w.members, r.id = c.memberId ∧ r.role = .owner

instance (w : World) (c : Change) : Decidable (w.TakesOwner c) := by
  unfold TakesOwner
  infer_instance

def IsMember (w : World) (userId : Text) : Prop := ∃ r ∈ w.members, r.userId = userId

instance (w : World) (userId : Text) : Decidable (w.IsMember userId) := by
  unfold IsMember
  infer_instance

/-- The rows after `update members … where id` or `delete from members where id`. -/
def changedRows (w : World) (c : Change) : List MemberRow :=
  match c.next with
  | some role => w.members.map fun r => if r.id = c.memberId then { r with role := role } else r
  | none => w.members.filter fun r => r.id ≠ c.memberId

end World

/-- The pending invitations that meet a condition get another status. -/
def closePending (p : Invitation → Bool) (status : InvitationStatus) :
    Text → Option Invitation → Option (Option Invitation) := fun _ row =>
  match row with
  | some inv => if inv.status = .pending && p inv then some (some { inv with status }) else none
  | none => none

/-- The write of a revocation. -/
def revokedRow (invitationId : Text) : Text → Option Invitation → Option (Option Invitation) :=
  fun k row => if k = invitationId then closePending (fun _ => true) .revoked k row else none

/-- The write of an acceptance to its invitation; it asks for no status. -/
def acceptedRow (invitationId userId : Text) (now : ℤ) :
    Text → Option Invitation → Option (Option Invitation) := fun k row =>
  if k = invitationId then row.map fun inv => some
    { inv with status := .accepted, acceptedAt := some now, acceptedBy := some userId }
  else none

inductive Act
  /-- Time passes. -/
  | tick (t : ℤ)
  /-- `changeMemberRole` and `removeMember` read the members. -/
  | readMembers (memberId : Text) (next : Option MemberRole)
  /-- One of them writes and commits, or fails. -/
  | commitChange (i : ℕ)
  | failChange (i : ℕ)
  | createInvitation (id email : Text) (role : MemberRole) (now : ℤ)
  | revokeInvitation (id : Text)
  /-- The daily job. -/
  | expireInvitations (now : ℤ)
  /-- `acceptInvitation` reads the invitation, in a transaction of its own. -/
  | readInvitation (userId invitationId : Text)
  /-- It writes and commits, or fails. -/
  | commitAcceptance (i : ℕ) (memberId : Text)
  | failAcceptance (i : ℕ)
  /-- The platform makes an account a member. -/
  | addMember (row : MemberRow)

section Steps

variable (L : LowerCase)

/-- The commit of a role change or a removal. -/
def World.afterChange (w : World) (i : ℕ) (c : Change) : World :=
  { w with
    members := w.changedRows c
    losses := if w.TakesOwner c then w.losses + 1 else w.losses
    changes := w.changes.eraseIdx i }

/-- The commit of an acceptance: a membership, if there is none, and the invitation. -/
def World.afterAcceptance (w : World) (i : ℕ) (a : Acceptance) (memberId : Text) : World :=
  let invitation := (w.invitations a.invitationId).value
  { w with
    members := if w.IsMember a.userId then w.members else w.members ++ [⟨memberId, a.userId, a.role⟩]
    joined := if w.IsMember a.userId then w.joined
      else w.joined ++ [⟨a.userId, a.invitationId, invitation, w.clock⟩]
    invitations := writeWhere w.invitations (acceptedRow a.invitationId a.userId w.clock)
    acceptances := w.acceptances.eraseIdx i }

/-- One step of anybody. -/
def step (w : World) : Act → Option World
  | .tick t => if w.clock ≤ t then some { w with clock := t } else none
  | .readMembers memberId next =>
    if (w.members.find? fun r => r.id = memberId) = none then some w
    else if ownerWouldVanish w.members memberId next then some w
    else some { w with changes := ⟨memberId, next, w.losses⟩ :: w.changes }
  | .commitChange i => (w.changes[i]?).map (w.afterChange i)
  | .failChange i => some { w with changes := w.changes.eraseIdx i }
  | .createInvitation id email role now =>
    let address := L.lower (trim email)
    if now ≤ w.clock ∧ (w.invitations id).value = none then
      let revoked := writeWhere w.invitations (closePending (fun inv => inv.email = address) .revoked)
      some { w with
        invitations := writeAt revoked id
          (some ⟨address, role, .pending, now + inviteTtlMs, none, none⟩) }
    else none
  | .revokeInvitation id =>
    some { w with invitations := writeWhere w.invitations (revokedRow id) }
  | .expireInvitations now =>
    if now ≤ w.clock then
      some { w with
        invitations :=
          writeWhere w.invitations (closePending (fun inv => inv.expiresAt < now) .expired) }
    else none
  | .readInvitation userId invitationId =>
    match w.accounts userId, openInvitation (w.invitations invitationId).value w.clock with
    | some email, some inv =>
      if L.lower inv.email ≠ L.lower email then some w
      else
        some { w with
          acceptances :=
            ⟨userId, invitationId, inv.role, w.invitations invitationId⟩ :: w.acceptances }
    | _, _ => some w
  | .commitAcceptance i memberId =>
    if ∃ r ∈ w.members, r.id = memberId then none
    else (w.acceptances[i]?).map fun a => w.afterAcceptance i a memberId
  | .failAcceptance i => some { w with acceptances := w.acceptances.eraseIdx i }
  | .addMember row =>
    if ∃ r ∈ w.members, r.id = row.id ∨ r.userId = row.userId then none
    else some { w with members := w.members ++ [row] }

end Steps

end Klick.WalletOrg
