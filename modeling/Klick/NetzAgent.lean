-- The network agent (`netz-agent/agent.ts`, `netz-agent/main.ts`): the state
-- that it manages on the server, the commands that it runs, and its operations.
import Klick.OrderedMap
import Klick.SiteTunnels

open Js

namespace Klick.SiteTunnels

open Net

/-! ## The managed state -/

/-- The sets of the firewall: `site_peers` and `site_nets`. -/
inductive NftSet
  | sitePeers
  | siteNets
deriving DecidableEq, Repr

/-- A place of the managed state: the peer of a public key, the route of a network on
`wg-sites`, a value of a set of the firewall, the swanctl file of a tunnel. -/
inductive Slot
  | peer (publicKey : Text)
  | route (net : Text)
  | element (set : NftSet) (value : Text)
  | conf (id : Text)
deriving DecidableEq

inductive Entry
  | present
  | peer (presharedKey : Text) (allowedIps : List Text)
  | file (text : Text)
deriving DecidableEq

abbrev Runtime := Slot → Option Entry

def Runtime.empty : Runtime := fun _ => none

/-- A network that WireGuard allows to one peer is taken from the others. -/
def Entry.without (nets : List Text) : Entry → Entry
  | .peer presharedKey allowedIps => .peer presharedKey (allowedIps.filter fun n => !nets.contains n)
  | e => e

/-! ## Commands -/

inductive Bin
  | ip
  | wg
  | nft
  | swanctl
deriving DecidableEq, Repr

def Bin.name : Bin → Text
  | .ip => js "ip"
  | .wg => js "wg"
  | .nft => js "nft"
  | .swanctl => js "swanctl"

/-- The commands on the managed state, and all `other` ones with their arguments and input:
`wg set wg-sites peer K preshared-key /dev/stdin allowed-ips N,…`, `wg set wg-sites peer K remove`,
`ip route replace|del N dev wg-sites`, `nft add|delete element inet klick S { V, … }`,
`swanctl --load-all --clear --noprompt`, `swanctl --terminate --ike C --force`. -/
inductive Command
  | setPeer (publicKey presharedKey : Text) (nets : List Text)
  | removePeer (publicKey : Text)
  | replaceRoute (net : Text)
  | deleteRoute (net : Text)
  | addElements (set : NftSet) (values : List Text)
  | deleteElement (set : NftSet) (value : Text)
  | loadAll
  | terminate (name : Text)
  | other (bin : Bin) (args : List String) (input : Text)
deriving DecidableEq

def Command.bin : Command → Bin
  | .setPeer .. => .wg
  | .removePeer _ => .wg
  | .replaceRoute _ => .ip
  | .deleteRoute _ => .ip
  | .addElements .. => .nft
  | .deleteElement .. => .nft
  | .loadAll => .swanctl
  | .terminate _ => .swanctl
  | .other bin _ _ => bin

/-- What a command does to the managed state when it succeeds. -/
def Command.effect (r : Runtime) : Command → Runtime
  | .setPeer publicKey presharedKey nets => fun slot =>
    if slot = .peer publicKey then some (.peer presharedKey nets) else (r slot).map (·.without nets)
  | .removePeer publicKey => Function.update r (.peer publicKey) none
  | .replaceRoute net => Function.update r (.route net) (some .present)
  | .deleteRoute net => Function.update r (.route net) none
  | .addElements set values => fun slot =>
    if slot ∈ values.map (.element set) then some .present else r slot
  | .deleteElement set value => Function.update r (.element set value) none
  | .loadAll => r
  | .terminate _ => r
  | .other .. => r

structure RunResult where
  code : ℤ
  stdout : Text
  stderr : Text
deriving DecidableEq

/-- The managed state, what the next commands will answer, and what has been run. -/
structure Session where
  runtime : Runtime
  answers : List RunResult
  issued : List (Command × RunResult)

namespace Session

/-- The answer to the next command. Behind the given answers every command succeeds. -/
def answer (s : Session) : RunResult := s.answers.headD ⟨0, [], []⟩

/-- `run`: a command that fails changes nothing. -/
def run (s : Session) (c : Command) : Session where
  runtime := if s.answer.code = 0 then c.effect s.runtime else s.runtime
  answers := s.answers.tail
  issued := s.issued ++ [(c, s.answer)]

def setConf (s : Session) (id : Text) (text : Option Text) : Session :=
  { s with runtime := Function.update s.runtime (.conf id) (text.map .file) }

end Session

/-- The message of the `SpecError` for a command that failed. -/
def failure (c : Command) (r : RunResult) : Text :=
  c.bin.name ++ js "_failed: " ++ (trim r.stderr).take 200

/-- A step of an operation: a command whose answer nobody looks at, a command that `must`
succeed, or a swanctl file that is written or deleted. -/
inductive Task
  | attempt (c : Command)
  | require (c : Command)
  | file (id : Text) (text : Option Text)
deriving DecidableEq

/-- Tasks one after another, up to the first command that must succeed and fails. -/
def Session.perform (s : Session) : List Task → Option Text × Session
  | [] => (none, s)
  | .attempt c :: ts => (s.run c).perform ts
  | .require c :: ts =>
    if s.answer.code = 0 then (s.run c).perform ts else (some (failure c s.answer), s.run c)
  | .file id text :: ts => (s.setConf id text).perform ts

/-- Every task is a command that must succeed. -/
def AllRequired (ts : List Task) : Prop := ∀ t ∈ ts, ∃ c, t = .require c

/-! ## Setting up and tearing down -/

/-- The networks of the former specification that the new one lacks. -/
def droppedNets (spec : TunnelSpec) (prev : Option TunnelSpec) : List Text :=
  ((prev.map (·.nets)).getD []).filter fun n => !spec.nets.contains n

/-- The part of `applyRuntime` for WireGuard. -/
def peerTasks (spec : TunnelSpec) (prev : Option TunnelSpec) : List Task :=
  match spec.tech with
  | .ipsec _ => []
  | .wireguard publicKey presharedKey =>
    (match prev.map (·.tech) with
      | some (.wireguard former _) =>
        if former ≠ publicKey then [.attempt (.removePeer former)] else []
      | _ => []) ++
    .require (.setPeer publicKey presharedKey spec.nets) ::
    ((droppedNets spec prev).map fun n => .attempt (.deleteRoute n)) ++
    spec.nets.map fun n => .require (.replaceRoute n)

/-- The part of `applyRuntime` for the firewall. -/
def firewallTasks (spec : TunnelSpec) (prev : Option TunnelSpec) : List Task :=
  (match prev with
    | some p =>
      if p.peerIp ≠ spec.peerIp then [.attempt (.deleteElement .sitePeers p.peerIp)] else []
    | none => []) ++
  ((droppedNets spec prev).map fun n => .attempt (.deleteElement .siteNets n)) ++
  [.require (.addElements .sitePeers [spec.peerIp]), .require (.addElements .siteNets spec.nets)]

/-- The commands of `applyRuntime`. -/
def setUpTasks (spec : TunnelSpec) (prev : Option TunnelSpec) : List Task :=
  peerTasks spec prev ++ firewallTasks spec prev

/-- `teardown` -/
def teardownTasks (spec : TunnelSpec) : List Task :=
  (match spec.tech with
    | .wireguard publicKey _ =>
      .attempt (.removePeer publicKey) :: spec.nets.map fun n => .attempt (.deleteRoute n)
    | .ipsec _ =>
      [.file spec.id none, .require .loadAll, .attempt (.terminate (connName spec.id))]) ++
  .attempt (.deleteElement .sitePeers spec.peerIp) ::
  spec.nets.map fun n => .attempt (.deleteElement .siteNets n)

/-! ## The agent -/

/-- What `ensureBase` sets up: the private key on disk, and the public key. -/
structure Base where
  keyFile : Option Text
  wgPublicKey : Option Text
deriving DecidableEq

structure Agent where
  serverIp : Text
  specs : OrderedMap Text TunnelSpec
  errors : OrderedMap Text Text
  base : Base
  baseError : Option Text
  hostNets : List IpRange

namespace Agent

/-- What cannot be read overlaps nothing. -/
def netsOverlap (a b : Text) : Bool :=
  match parseCidr a, parseCidr b with
  | some ra, some rb => rangesOverlap ra rb
  | _, _ => false

def overHost (a : Agent) (net : Text) : Bool :=
  match parseCidr net with
  | some r => a.hostNets.any (rangesOverlap · r)
  | none => false

def clash (spec other : TunnelSpec) : Option Text :=
  if other.id = spec.id then none
  else if other.peerIp = spec.peerIp then some (js "peer_taken")
  else if other.nets.any fun x => spec.nets.any fun y => netsOverlap x y then
    some (js "nets_overlap")
  else none

def conflicts (a : Agent) (spec : TunnelSpec) : Option Text :=
  if spec.nets.any a.overHost then some (js "nets_host")
  else a.specs.values.findSome? (clash spec)

def isIpsec : Tech → Bool
  | .ipsec _ => true
  | .wireguard _ _ => false

/-- `applyRuntime`: what fails stays with its tunnel, and is thrown. -/
def applyRuntime (a : Agent) (s : Session) (spec : TunnelSpec) (prev : Option TunnelSpec) :
    Option Text × Agent × Session :=
  match s.perform (setUpTasks spec prev) with
  | (none, s) => (none, a, s)
  | (some e, s) => (some e, { a with errors := a.errors.set spec.id e }, s)

/-- The file of an IPsec tunnel: it is written, and loaded, when it differs. -/
def confTasks (a : Agent) (r : Runtime) (spec : TunnelSpec) : List Task :=
  match spec.tech with
  | .wireguard _ _ => []
  | .ipsec psk =>
    let conf := renderSwanctl spec.id spec.peerIp psk spec.nets a.serverIp
    if r (.conf spec.id) ≠ some (.file conf) then [.file spec.id (some conf), .require .loadAll]
    else []

/-- The tasks that take the side of another technique down. -/
def switchTasks (spec : TunnelSpec) : Option TunnelSpec → List Task
  | some p => if isIpsec p.tech = isIpsec spec.tech then [] else teardownTasks p
  | none => []

/-- The former specification, when it has the same technique. -/
def sameTech (spec : TunnelSpec) (prev : Option TunnelSpec) : Option TunnelSpec :=
  prev.filter fun p => isIpsec p.tech = isIpsec spec.tech

/-- Whether a specification is another than the stored one. -/
def changed (a : Agent) (spec : TunnelSpec) : Bool := a.specs.get spec.id ≠ some spec

def store (a : Agent) (spec : TunnelSpec) : Agent :=
  if a.changed spec then { a with specs := a.specs.set spec.id spec } else a

/-- `apply` for a specification that is valid and without conflict. -/
def applySpec (a : Agent) (s : Session) (spec : TunnelSpec) :
    Except Thrown Bool × Agent × Session :=
  let prev := a.specs.get spec.id
  let changed := a.changed spec
  let a := a.store spec
  match s.perform (switchTasks spec prev) with
  | (some e, s) => (.error (.spec e), a, s)
  | (none, s) =>
    match a.applyRuntime s spec (sameTech spec prev) with
    | (some e, a, s) => (.error (.spec e), a, s)
    | (none, a, s) =>
      match s.perform (a.confTasks s.runtime spec) with
      | (some e, s) => (.error (.spec e), a, s)
      | (none, s) => (.ok changed, { a with errors := a.errors.erase spec.id }, s)

def apply (a : Agent) (s : Session) (raw : Value) : Except Thrown Bool × Agent × Session :=
  match validateSpec raw with
  | .error e => (.error e, a, s)
  | .ok spec =>
    match a.conflicts spec with
    | some e => (.error (.spec e), a, s)
    | none => a.applySpec s spec

def remove (a : Agent) (s : Session) (rawId : Value) : Except Thrown Bool × Agent × Session :=
  match validateId rawId with
  | .error e => (.error e, a, s)
  | .ok id =>
    match a.specs.get id with
    | none => (.ok false, a, s)
    | some spec =>
      match s.perform (teardownTasks spec) with
      | (some e, s) => (.error (.spec e), a, s)
      | (none, s) =>
        (.ok true, { a with specs := a.specs.erase id, errors := a.errors.erase id }, s)

/-- The error of each tunnel in `status`. -/
def statusErrors (a : Agent) : List (Text × Option Text) :=
  a.specs.values.map fun spec => (spec.id, a.errors.get spec.id)

/-! ## Start -/

/-- The files of the directory of tunnels: their names, and what can be read of them. -/
abbrev Files := List (Text × Option Text)

/-- The specification of a file; what is no specification is skipped. -/
def storedSpec (f : Text × Option Text) : Option TunnelSpec :=
  match f.2.map parseJson with
  | some (.ok v) =>
    match validateSpec v with
    | .ok spec => if spec.id ++ js ".json" = f.1 then some spec else none
    | .error _ => none
  | _ => none

def loadSpecs (files : Files) : OrderedMap Text TunnelSpec :=
  ((files.filter fun f => (js ".json").isSuffixOf f.1).filterMap storedSpec).foldl
    (fun m spec => m.set spec.id spec) .empty

/-- `new NetzAgent` -/
def create (serverIp : Text) (files : Files) (keyFile : Option Text) : Agent where
  serverIp
  specs := loadSpecs files
  errors := .empty
  base := ⟨keyFile, none⟩
  baseError := none
  hostNets := []

/-- The networks of one interface of the server. -/
def linkNets (link : Value) : Except Exn (List IpRange) :=
  match link with
  | .undefined => .ok []
  | .null => .ok []
  | link =>
    match link.get (js "ifname") with
    | .str name =>
      if name ∈ [js "lo", js "wg-sites", js "klick-sites"] then .ok []
      else
        match link.get (js "addr_info") with
        | .undefined => .ok []
        | .null => .ok []
        | .str _ => .ok []
        | .arr addrs => do
          let nets ← addrs.mapM fun a => do
            let family ← a.prop "family"
            let address ← a.prop "local"
            match family.isOneOf [js "inet"], address with
            | true, .str address =>
              let n ← (← a.prop "prefixlen").toNumber
              return (parseCidr (address ++ ch '/' :: n.toText)).toList
            | _, _ => return []
          return nets.flatten
        | _ => .error .typeError
    | _ => .ok []

def parseHostNets (json : Text) : Except Exn (List IpRange) :=
  match parseJson json with
  | .ok (.arr links) => do return (← links.mapM linkNets).flatten
  | _ => .ok []

def readHostNets (a : Agent) (s : Session) : Except Exn Agent × Session :=
  let c := Command.other .ip ["-j", "-4", "addr", "show"] []
  if s.answer.code ≠ 0 then (.ok a, s.run c)
  else ((parseHostNets s.answer.stdout).map fun hostNets => { a with hostNets }, s.run c)

/-- A part of `ensureBase`; it throws the message of a `SpecError`. -/
abbrev BaseM := ExceptT Text (StateM (Session × Base))

def baseRun (bin : Bin) (args : List String) (input : Text) : BaseM RunResult := do
  let (s, b) ← get
  set (s.run (.other bin args input), b)
  return s.answer

def baseMust (bin : Bin) (args : List String) (input : Text) : BaseM RunResult := do
  let r ← baseRun bin args input
  if r.code ≠ 0 then throw (failure (.other bin args input) r) else return r

/-- The interface of a name, made where it is missing. -/
def ensureLink (name kind : String) : BaseM Unit := do
  let r ← baseRun .ip ["link", "show", "dev", name] []
  if r.code ≠ 0 then
    let _ ← baseMust .ip ["link", "add", name, "type", kind] []

/-- The private key, made where there is none. -/
def ensureKey : BaseM Text := do
  match (← get).2.keyFile with
  | some key => return key
  | none =>
    let r ← baseMust .wg ["genkey"] []
    let key := trim r.stdout
    if !isWgKey key then throw (js "wg_genkey")
    modify fun (s, b) => (s, { b with keyFile := some (key ++ [10]) })
    return key ++ [10]

def ensureBase : BaseM Unit := do
  ensureLink "klick-sites" "dummy"
  let _ ← baseMust .ip ["addr", "replace", "10.21.0.1/32", "dev", "klick-sites"] []
  let _ ← baseMust .ip ["link", "set", "klick-sites", "up"] []
  let key ← ensureKey
  let r ← baseMust .wg ["pubkey"] (trim key ++ [10])
  if !isWgKey (trim r.stdout) then throw (js "wg_pubkey")
  modify fun (s, b) => (s, { b with wgPublicKey := some (trim r.stdout) })
  ensureLink "wg-sites" "wireguard"
  let _ ← baseMust .wg
    ["set", "wg-sites", "listen-port", "51821", "private-key", "wg-sites.key"] []
  let _ ← baseMust .ip ["link", "set", "wg-sites", "up"] []

/-- The first part of `start`: the networks of the server, and the base. An error of the base is
kept. -/
def prepare (a : Agent) (s : Session) : Except Exn Agent × Session :=
  match a.readHostNets s with
  | (.error e, s) => (.error e, s)
  | (.ok a, s) =>
    match (ExceptT.run ensureBase).run (s, a.base) with
    | (.ok (), s, base) => (.ok { a with base, baseError := none }, s)
    | (.error e, s, base) => (.ok { a with base, baseError := some e }, s)

/-- The stored tunnels are set up again, up to the first that fails. -/
def replay (a : Agent) (s : Session) : List TunnelSpec → Option Text × Agent × Session
  | [] => (none, a, s)
  | spec :: specs =>
    match a.applyRuntime s spec none with
    | (some e, a, s) => (some e, a, s)
    | (none, a, s) => a.replay s specs

/-- `reloadSwanctl` at the end of `start`. -/
def reloadTasks (specs : List TunnelSpec) : List Task :=
  if specs.any fun spec => isIpsec spec.tech then [.require .loadAll] else []

def start (a : Agent) (s : Session) : Except Thrown Unit × Agent × Session :=
  match a.prepare s with
  | (.error e, s) => (.error (.js e), a, s)
  | (.ok a, s) =>
    match a.replay s a.specs.values with
    | (some e, a, s) => (.error (.spec e), a, s)
    | (none, a, s) =>
      match s.perform (reloadTasks a.specs.values) with
      | (some e, s) => (.error (.spec e), a, s)
      | (none, s) => (.ok (), a, s)

end Agent

/-- What becomes of the process. -/
inductive Process
  | serving (a : Agent) (s : Session)
  | exited (code : ℕ)

/-- `main`, up to the socket. -/
def main (publicIp : Text) (files : Agent.Files) (keyFile : Option Text) (s : Session) : Process :=
  match checkPeerIp publicIp with
  | .error _ => .exited 1
  | .ok none => .exited 2
  | .ok (some ip) =>
    match (Agent.create ip files keyFile).start s with
    | (.ok _, a, s) => .serving a s
    | (.error _, _, _) => .exited 1

end Klick.SiteTunnels
