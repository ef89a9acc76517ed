-- Links for the registration of a passkey (`apps/wallet/lib/auth/links.ts` and
-- `passkey-link.ts`, `lib/auth/registration-link.ts` and `passkey-link.ts`): tokens of
-- which the hash is stored, and a registration that reads the token, judges it, makes an
-- account, takes the token away and stores the passkey, each in a statement of its own.
import Klick.LowerCase

open Js

namespace Klick.PasskeyLinks

/-! ## Tokens -/

inductive LinkKind
  | invite | recover | activate
deriving DecidableEq, Repr

inductive LinkPayload
  | invite (invitationId organizationId email : Text) (name : Option Text)
  | recover (userId email : Text) (name : Option Text)
  | activate (userId email : Text) (invitationId name : Option Text)
deriving DecidableEq, Repr

namespace LinkPayload

def kind : LinkPayload → LinkKind
  | .invite .. => .invite
  | .recover .. => .recover
  | .activate .. => .activate

/-- The invitation or the account of a link. -/
def subject : LinkPayload → Text
  | .invite id _ _ _ => id
  | .recover id _ _ => id
  | .activate id _ _ _ => id

def email : LinkPayload → Text
  | .invite _ _ email _ => email
  | .recover _ email _ => email
  | .activate _ email _ _ => email

def name : LinkPayload → Option Text
  | .invite _ _ _ name => name
  | .recover _ _ name => name
  | .activate _ _ _ name => name

/-- `{ ...payload, name }` -/
def withName (name : Text) : LinkPayload → LinkPayload
  | .invite id org email _ => .invite id org email (some name)
  | .recover id email _ => .recover id email (some name)
  | .activate id email inv _ => .activate id email inv (some name)

@[simp] theorem kind_withName (p : LinkPayload) (name : Text) : (p.withName name).kind = p.kind := by
  cases p <;> rfl

end LinkPayload

/-- An application with such links: how its tokens and their rows begin, and whether it turns
accounts away that are blocked. -/
structure App where
  linkPrefix : LinkKind → Text
  rowPrefix : LinkKind → Text
  refusesBlocked : Bool

/-- `apps/wallet/lib/auth/links.ts` -/
def wallet : App where
  linkPrefix
    | .invite => js "kwl_invite_"
    | .recover => js "kwl_recover_"
    | .activate => js "kwl_activate_"
  rowPrefix
    | .invite => js "link-invite:"
    | .recover => js "link-recover:"
    | .activate => js "link-activate:"
  refusesBlocked := false

/-- `lib/auth/registration-link.ts` -/
def klick : App where
  linkPrefix
    | .invite => js "klk_invite_"
    | .recover => js "klk_recover_"
    | .activate => js "klk_activate_"
  rowPrefix
    | .invite => js "passkey-invite:"
    | .recover => js "passkey-recover:"
    | .activate => js "passkey-activate:"
  refusesBlocked := true

def kindOfToken (app : App) (raw : Text) : Option LinkKind :=
  [LinkKind.invite, .recover, .activate].find? fun kind => (app.linkPrefix kind).isPrefixOf raw

/-- A row of the table `verification`. -/
structure TokenRow where
  payload : LinkPayload
  expiresAt : ℤ
deriving DecidableEq

/-! ## Accounts and invitations -/

structure User where
  id : Text
  email : Text
  name : Text
  banned : Bool
  banExpires : Option ℤ
deriving DecidableEq

/-- `isBanActive` -/
def isBanActive (u : User) (now : ℤ) : Bool :=
  u.banned && match u.banExpires with
    | some t => now < t
    | none => true

structure Invitation where
  email : Text
  organizationId : Text
  pending : Bool
  expiresAt : ℤ
deriving DecidableEq

structure Directory where
  users : List User
  invitations : Text → Option Invitation

section Judging

variable (L : LowerCase) (app : App)

/-- An invitation that is open, in the organisation and for the address of the link. -/
def openInvitation (db : Directory) (invitationId organizationId email : Text) (now : ℤ) : Bool :=
  match db.invitations invitationId with
  | none => false
  | some inv => inv.organizationId = organizationId && inv.pending && !(inv.expiresAt < now) &&
      L.lower inv.email = L.lower email

/-- What `resolveLink` and `resolveRegistration` ask of the present state, once the token is read. -/
def judge (db : Directory) (now : ℤ) : LinkPayload → Bool
  | .invite invitationId organizationId email _ =>
    openInvitation L db invitationId organizationId email now
  | p =>
    match db.users.find? fun u => u.id = p.subject with
    | none => false
    | some u => L.lower u.email = L.lower p.email && !(app.refusesBlocked && isBanActive u now)

/-- The account of an address, as an invitation asks for it. -/
def accountExists (db : Directory) (email : Text) : Bool :=
  db.users.any fun u => u.email = L.lower email

/-- The name of a new account. -/
def newName (p : LinkPayload) : Text :=
  let given := trim (p.name.getD [])
  let front := ((p.email.splitOn (ch '@')).head?).getD []
  if given ≠ [] then given else if front ≠ [] then front else p.email

end Judging

/-! ## Registrations -/

/-- How far a registration has come. -/
inductive Stage
  /-- The token was read. -/
  | read (payload : LinkPayload)
  /-- The link was found to be good; an invitation needs an account. -/
  | judged (payload : LinkPayload)
  /-- The hook before the account has read the token again. -/
  | reread (payload : LinkPayload)
  | checked (payload : LinkPayload)
  /-- The account is there; the token is to be taken away. -/
  | ready (kind : LinkKind) (userId : Text)
  /-- The token was taken away; the passkey is to be stored. -/
  | consumed (kind : LinkKind) (userId : Text)
deriving DecidableEq

structure Registration where
  /-- The cookie. -/
  raw : Text
  /-- The account for which the options were made: that of the link, or the invitation. -/
  userId : Text
  /-- All accounts there had been when it began. -/
  before : List Text
  stage : Stage
deriving DecidableEq

/-- A passkey that was stored on a link. -/
structure Completed where
  token : Text
  kind : LinkKind
  userId : Text
  before : List Text
deriving DecidableEq

structure World where
  tokens : Text → Option TokenRow
  db : Directory
  /-- All accounts that there have been. -/
  ids : List Text
  clock : ℤ
  /-- Links that have replaced the old ones and are not stored yet. -/
  issuing : List TokenRow
  /-- New names of links whose payload was read. -/
  naming : List (Text × LinkPayload × Text)
  registrations : List Registration
  /-- Tokens that were handed out, and those that a revocation or a new link found. -/
  issued : List Text
  revoked : Text → Bool
  completed : List Completed

inductive Act
  | tick (t : ℤ)
  /-- Others write accounts and invitations. -/
  | directory (db : Directory)
  /-- `revokeLinks` -/
  | revoke (kind : LinkKind) (subject : Text)
  /-- `issueLink`: the old links go, then the new one is stored. -/
  | replace (row : TokenRow)
  | issue (i : ℕ) (raw : Text)
  /-- `setLinkName`: the payload is read, then written. -/
  | readName (raw name : Text)
  | writeName (i : ℕ)
  /-- `completeLinkRegistration` and what follows. -/
  | begin (raw userId : Text)
  | judge (i : ℕ) (keyAllowed : Bool)
  | reread (i : ℕ)
  | recheck (i : ℕ)
  | createUser (i : ℕ) (id : Text)
  | consume (i : ℕ)
  | store (i : ℕ)
  | fail (i : ℕ)

section Steps

variable (L : LowerCase) (app : App) (hashOf : Text → Text)

/-- `identifierOf` -/
def identifierOf (kind : LinkKind) (raw : Text) : Text := app.rowPrefix kind ++ hashOf raw

/-- The row that a token names. -/
def rowOf (raw : Text) : Option Text := (kindOfToken app raw).map (identifierOf app hashOf · raw)

def readToken (w : World) (raw : Text) : Option TokenRow :=
  match kindOfToken app raw with
  | none => none
  | some kind =>
    if raw.length > 200 then none
    else
      match w.tokens (identifierOf app hashOf kind raw) with
      | none => none
      | some row => if row.expiresAt < w.clock ∨ row.payload.kind ≠ kind then none else some row

/-- The links of a subject. -/
def concerns (kind : LinkKind) (subject : Text) (row : Option TokenRow) : Bool :=
  match row with
  | some r => r.payload.kind = kind && r.payload.subject = subject
  | none => false

/-- A registration that has taken a link of the subject away, and has not stored a passkey yet. -/
def Registration.holds (kind : LinkKind) (subject : Text) (r : Registration) : Bool :=
  match r.stage with
  | .consumed k _ => k = kind && r.userId = subject
  | _ => false

/-- Tokens of the subject that a passkey may still be stored for. -/
def World.inForce (w : World) (kind : LinkKind) (subject : Text) (k : Text) : Bool :=
  concerns kind subject (w.tokens k) ||
    w.registrations.any fun r => r.holds kind subject && rowOf app hashOf (trim r.raw) = some k

/-- `delete from verification`, by the subject. -/
def World.without (w : World) (kind : LinkKind) (subject : Text) : World :=
  { w with
    tokens := fun k => if concerns kind subject (w.tokens k) then none else w.tokens k
    revoked := fun k => w.revoked k || w.inForce app hashOf kind subject k }

def World.setStage (w : World) (i : ℕ) (r : Registration) (stage : Stage) : World :=
  { w with registrations := w.registrations.set i { r with stage } }

def World.drop (w : World) (i : ℕ) : World :=
  { w with registrations := w.registrations.eraseIdx i }

/-- The link was found to be good: whose passkey it will be. -/
def World.judged (w : World) (i : ℕ) (r : Registration) (p : LinkPayload) : World :=
  if r.userId ≠ p.subject then w.drop i
  else
    match p with
    | .invite _ _ email _ =>
      if accountExists L w.db email then w.drop i else w.setStage i r (.judged p)
    | p => w.setStage i r (.ready p.kind p.subject)

/-- The account of an invitation, whose address no other account has. -/
def World.createUser (w : World) (i : ℕ) (r : Registration) (p : LinkPayload) (id : Text) :
    World :=
  let user : User := ⟨id, L.lower p.email, newName p, false, none⟩
  if w.db.users.any fun u => u.email = user.email then w.drop i
  else
    { w with
      db := { w.db with users := w.db.users ++ [user] }
      ids := id :: w.ids
      registrations := w.registrations.set i { r with stage := .ready p.kind id } }

/-- `consumeLink`: the row of the cookie's text, if there is one. -/
def World.consume (w : World) (i : ℕ) (r : Registration) (kind : LinkKind) (userId : Text) :
    World :=
  { w with
    tokens := fun k => if rowOf app hashOf r.raw = some k then none else w.tokens k
    registrations := w.registrations.set i { r with stage := .consumed kind userId } }

/-- The plugin stores the passkey. -/
def World.store (w : World) (i : ℕ) (r : Registration) (kind : LinkKind) (userId : Text) : World :=
  { w with
    registrations := w.registrations.eraseIdx i
    completed := ⟨(rowOf app hashOf (trim r.raw)).getD [], kind, userId, r.before⟩ :: w.completed }

/-- One step of a registration; a statement that finds nothing ends it. -/
def stepRegistration (w : World) (i : ℕ) (r : Registration) (act : Act) : Option World :=
  match r.stage, act with
  | .read p, .judge _ keyAllowed =>
    some (if judge L app w.db w.clock p && keyAllowed then w.judged L i r p else w.drop i)
  | .judged p, .reread _ =>
    some (match readToken app hashOf w (trim r.raw) with
      | some _ => w.setStage i r (.reread p)
      | none => w.drop i)
  | .reread p, .recheck _ =>
    some (if judge L app w.db w.clock p then w.setStage i r (.checked p) else w.drop i)
  | .checked p, .createUser _ id => if id ∈ w.ids then none else some (w.createUser L i r p id)
  | .ready kind userId, .consume _ => some (w.consume app hashOf i r kind userId)
  | .consumed kind userId, .store _ => some (w.store app hashOf i r kind userId)
  | _, .fail _ => some (w.drop i)
  | _, _ => none

def World.registrationStep (w : World) (i : ℕ) (act : Act) : Option World :=
  (w.registrations[i]?).bind fun r => stepRegistration L app hashOf w i r act

/-- One step of anybody. -/
def step (w : World) (act : Act) : Option World :=
  match act with
  | .tick t => if w.clock ≤ t then some { w with clock := t } else none
  | .directory db => some { w with db, ids := db.users.map (·.id) ++ w.ids }
  | .revoke kind subject => some (w.without app hashOf kind subject)
  | .replace row =>
    let w' := w.without app hashOf row.payload.kind row.payload.subject
    some { w' with issuing := row :: w.issuing }
  | .issue i raw =>
    match w.issuing[i]?, rowOf app hashOf raw with
    | some row, some k =>
      -- the token is random: its row has never been there
      if k ∈ w.issued ∨ kindOfToken app raw ≠ some row.payload.kind then none
      else some { w with
        tokens := Function.update w.tokens k (some row)
        issued := k :: w.issued
        revoked := fun j => w.revoked j ||
          w.inForce app hashOf row.payload.kind row.payload.subject j
        issuing := w.issuing.eraseIdx i }
    | _, _ => none
  | .readName raw name =>
    some (match readToken app hashOf w raw, rowOf app hashOf raw with
      | some row, some k => { w with naming := (k, row.payload, name) :: w.naming }
      | _, _ => w)
  | .writeName i =>
    (w.naming[i]?).map fun n =>
      { w with
        tokens := Function.update w.tokens n.1
          ((w.tokens n.1).map fun row => { row with payload := n.2.1.withName n.2.2 })
        naming := w.naming.eraseIdx i }
  | .begin raw userId =>
    some (match readToken app hashOf w (trim raw) with
      | some row => { w with
          registrations := ⟨raw, userId, w.ids, .read row.payload⟩ :: w.registrations }
      | none => w)
  | .judge i _ => w.registrationStep L app hashOf i act
  | .reread i => w.registrationStep L app hashOf i act
  | .recheck i => w.registrationStep L app hashOf i act
  | .createUser i _ => w.registrationStep L app hashOf i act
  | .consume i => w.registrationStep L app hashOf i act
  | .store i => w.registrationStep L app hashOf i act
  | .fail i => w.registrationStep L app hashOf i act

end Steps

end Klick.PasskeyLinks
