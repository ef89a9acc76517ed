-- The protocol of the signer (`signer/protocol.ts`): one line for a request,
-- one response for a line. Two sockets take different commands: the one of
-- the app only brakes and passes on approvals, the one of root loosens.
import Klick.Admin

open Js

namespace Klick

/-! ## The commands -/

inductive Command
  | hello | status | journalHead | journalVerify
  | accountCreate | intentCreate | intentGet | approve | sign
  | intentCancel (origin : By)
  | whitelistVeto
  | freeze (origin : By)
  | unfreeze | policyTighten | policySet
  | mandateCreate | mandateGet | mandateApprove
  | mandateRevoke (origin : By)
  | enrolInfo | enrolFinish | enrolStart | keyRevoke
  | seedPrepare | initCommit | networkCommit | exportXpubs | rekey
deriving DecidableEq, Repr

/-- `APP_COMMANDS` -/
def appCommands : List (String × Command) := [
  ("hello", .hello), ("status", .status), ("journal.head", .journalHead),
  ("account.create", .accountCreate), ("intent.create", .intentCreate),
  ("intent.get", .intentGet), ("approve", .approve), ("enrol.info", .enrolInfo),
  ("enrol.finish", .enrolFinish), ("sign", .sign), ("intent.cancel", .intentCancel .app),
  ("whitelist.veto", .whitelistVeto), ("freeze", .freeze .app),
  ("policy.tighten", .policyTighten), ("mandate.create", .mandateCreate),
  ("mandate.get", .mandateGet), ("mandate.approve", .mandateApprove),
  ("mandate.revoke", .mandateRevoke .app)]

/-- `ADMIN_COMMANDS` -/
def adminCommands : List (String × Command) := [
  ("hello", .hello), ("status", .status), ("journal.head", .journalHead),
  ("journal.verify", .journalVerify), ("seed.prepare", .seedPrepare),
  ("init.commit", .initCommit), ("network.commit", .networkCommit),
  ("enrol.start", .enrolStart), ("enrol.info", .enrolInfo), ("key.revoke", .keyRevoke),
  ("policy.set", .policySet), ("freeze", .freeze .admin), ("unfreeze", .unfreeze),
  ("intent.cancel", .intentCancel .admin), ("mandate.revoke", .mandateRevoke .admin),
  ("export-xpubs", .exportXpubs), ("rekey", .rekey)]

/-- The commands of a socket. -/
def commandsOf : By → List (String × Command)
  | .app => appCommands
  | .admin => adminCommands

/-- The command of a name, on a socket. -/
def commandOf (scope : By) (cmd : Value) : Option Command :=
  match cmd with
  | .str t => ((commandsOf scope).find? fun c => js c.1 = t).map Prod.snd
  | _ => none

def run (P : Platform) (g : Signer) (cmd : Command) (call : Call) : Outcome Value :=
  match cmd with
  | .hello => .answered g (object (helloFields P g))
  | .status => .answered g (statusValue P g call.clock.now)
  | .journalHead => .answered g (object g.headFields)
  | .journalVerify => carryOut P g call (journalVerify P g)
  | .accountCreate => carryOut P g call (accountCreate P g call)
  | .intentCreate => carryOut P g call (intentCreate P g call)
  | .intentGet => carryOut P g call (intentGet P g call)
  | .approve => carryOut P g call (approve P g call)
  | .sign => carryOut P g call (sign P g call)
  | .intentCancel origin => carryOut P g call (intentCancel origin g call)
  | .whitelistVeto => carryOut P g call (whitelistVeto g call)
  | .freeze origin => carryOut P g call (freeze P origin g call)
  | .unfreeze => carryOut P g call (unfreeze g)
  | .policyTighten => carryOut P g call (policyTighten P g call)
  | .policySet => carryOut P g call (policySet P g call)
  | .mandateCreate => carryOut P g call (mandateCreate P g call)
  | .mandateGet => carryOut P g call (mandateGet P g call)
  | .mandateApprove => carryOut P g call (mandateApprove P g call)
  | .mandateRevoke origin => carryOut P g call (mandateRevoke origin g call)
  | .enrolInfo => carryOut P g call (enrolInfo g call)
  | .enrolFinish => carryOut P g call (enrolFinish P g call)
  | .enrolStart => carryOut P g call (enrolStart g call)
  | .keyRevoke => carryOut P g call (keyRevoke g call)
  | .seedPrepare => seedPrepare P g call
  | .initCommit => initCommit P g call
  | .networkCommit => networkCommit P g call
  | .exportXpubs => carryOut P g call (.ok (exportXpubs g))
  | .rekey => rekey P g call

/-! ## One line, one response -/

structure ErrorBody where
  code : String
  detail : Option Text
deriving DecidableEq, Repr

/-- An empty detail is left out, and an unexpected error says nothing. -/
def errorOf : Failure → ErrorBody
  | .signer code detail => ⟨code, detail.filter (· ≠ [])⟩
  | .thrown .syntaxError => ⟨"bad_request", some (js "json")⟩
  | _ => ⟨"internal", none⟩

structure Response where
  id : Value
  result : Except ErrorBody Value
  seq : ℕ
  head : Text

/-- A response says `ok`. -/
def Response.ok (r : Response) : Bool := r.result.toBool

/-- A line that was handled: the response, the signer after it, and what was recorded. -/
structure Handled where
  response : Response
  signer : Signer
  recorded : List SignerEvent

/-- The response to an outcome, with the head of the journal after it. -/
def respond (id : Value) (o : Outcome Value) : Handled where
  response := ⟨id, o.result.mapError errorOf, o.signer.journal.seq, o.signer.journal.head⟩
  signer := o.signer
  recorded := o.recorded

/-- An object without fields. -/
def emptyArgs : Json := ⟨.obj [], by decide⟩

/-- `req.args ?? {}` -/
def requestArgs (fields : List (Text × Value)) (h : (Value.obj fields).Normal) : Json :=
  match hv : (Value.obj fields).get (js "args") with
  | .undefined => emptyArgs
  | .null => emptyArgs
  | v => ⟨v, hv ▸ h.get (js "args")⟩

/-- The id of a request: a text or a number, else nothing. -/
def requestId (req : Value) : Value :=
  match req.get (js "id") with
  | .str t => .str t
  | .num n => .num n
  | _ => .null

def handleRequest (P : Platform) (scope : By) (g : Signer) (w : World) (req : Json) : Handled :=
  match h : req.value with
  | .obj fields =>
    match commandOf scope (req.value.get (js "cmd")) with
    | some cmd => respond (requestId req.value)
        (run P g cmd { w with args := requestArgs fields (h ▸ req.normal) })
    | none => respond (requestId req.value) (.refused g (refuse "unknown_command"))
  | _ => respond .null (.refused g (bad (js "line")))

def handleLine (P : Platform) (scope : By) (g : Signer) (w : World) (line : Text) : Handled :=
  match h : parseJson line with
  | .error _ => respond .null (.refused g (.thrown .syntaxError))
  | .ok v => handleRequest P scope g w (.ofParsed v (distinct_of_parseJson h))

/-! ## Starting -/

/-- What the signer is started with. -/
structure Config where
  dev : Bool
  bundleHash : Option Text
  kek : Bytes

/-- Seeds and journal must fit together. -/
def seedsFit (P : Platform) (s : SignerState) (keys : KeyRing) : Bool :=
  WalletNetwork.all.all fun n =>
    (s.fingerprints n).all fun f => keys.fingerprint P.keys n = some f

/-- `Signer.open`, on the bytes of the journal and the seeds of the disk. -/
def Signer.open (P : Platform) (cfg : Config) (file : Option Bytes) (seedFile : SeedFile) :
    Except Failure Signer := do
  let (journal, entries) ← (Journal.open P.hash file).mapError .journal
  let events ← orRefuse (eventsOf entries) .internal
  let state ← internal (replay P.addresses events)
  let keys ← internal (KeyRing.load P.keys seedFile cfg.kek)
  check (seedsFit P state keys) (refuse "seed_mismatch")
  internal (keys.selfTest P.keys)
  return ⟨cfg.dev, cfg.bundleHash, cfg.kek, journal, state, seedFile, keys, none⟩

end Klick
