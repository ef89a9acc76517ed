-- The specification of a site tunnel, as the network agent checks it
-- (`netz-agent/spec.ts`, `lib/site-tunnels/rules.ts`), and the file that
-- swanctl reads of it (`netz-agent/render.ts`).
import Klick.NetIp
import Klick.Fields

open Js

namespace Klick.SiteTunnels

open Net

/-! ## Networks -/

/-- The networks of a list of the source. -/
def cidrs (list : List String) : List IpRange := list.filterMap fun s => parseCidr (js s)

def privateV4 : List IpRange := cidrs ["10.0.0.0/8", "172.16.0.0/12", "192.168.0.0/16"]

def nonPublicV4 : List IpRange :=
  cidrs ["0.0.0.0/8", "10.0.0.0/8", "100.64.0.0/10", "127.0.0.0/8", "169.254.0.0/16",
    "172.16.0.0/12", "192.0.0.0/24", "192.0.2.0/24", "192.88.99.0/24", "192.168.0.0/16",
    "198.18.0.0/15", "198.51.100.0/24", "203.0.113.0/24", "224.0.0.0/4", "240.0.0.0/4"]

/-- `RESERVED_NETS` without the transfer pool: nodes, administration, service. -/
def reservedNets : List IpRange := cidrs ["10.8.0.0/24", "10.9.0.0/24", "10.21.0.0/24"]

def maxSiteNets : ℕ := 8

def minNetPrefix : ℕ := 16

/-- What an operation throws: a `SpecError` with its code, or an error of JavaScript. -/
inductive Thrown
  | spec (code : Text)
  | js (e : Exn)
deriving DecidableEq

/-- `checkPeerIp`: the address, when it is a public one. A mapped address with `/32` behind it
is no network, and reading its family throws. -/
def checkPeerIp (input : Text) : Except Thrown (Option Text) :=
  match parseIp (trim input) with
  | none => .ok none
  | some ip =>
    if ip.family ≠ .v4 || input.contains (ch '/') then .ok none
    else
      match parseCidr (trim input ++ js "/32") with
      | none => .error (.js .typeError)
      | some r =>
        if nonPublicV4.any (rangeWithin r) then .ok none
        else .ok (some (r.text.take (r.text.length - 3)))

/-- `agentNetsAllowed` from the networks on that have passed. -/
def allowedFrom (ranges : List IpRange) : List Text → Bool
  | [] => true
  | n :: ns =>
    match parseCidr n with
    | none => false
    | some r =>
      r.family = .v4 && r.text = n && privateV4.any (rangeWithin r) &&
        minNetPrefix ≤ r.prefixLength && !reservedNets.any (rangesOverlap r) &&
        !ranges.any (rangesOverlap · r) && allowedFrom (ranges ++ [r]) ns

def agentNetsAllowed (nets : List Text) : Bool :=
  nets ≠ [] && nets.length ≤ maxSiteNets && allowedFrom [] nets

/-! ## The specification of a tunnel -/

/-- The technique with its keys. -/
inductive Tech
  | ipsec (psk : Text)
  | wireguard (publicKey presharedKey : Text)
deriving DecidableEq

structure TunnelSpec where
  id : Text
  peerIp : Text
  nets : List Text
  tech : Tech
deriving DecidableEq

def isLetter (u : UInt16) : Bool :=
  (65 ≤ u.toNat && u.toNat ≤ 90) || (97 ≤ u.toNat && u.toNat ≤ 122)

/-- `PSK_PATTERN` -/
def isPsk (t : Text) : Bool :=
  t.length = 43 && t.all fun u => isLetter u || isDigit u || u = ch '_' || u = ch '-'

/-- `WG_KEY_PATTERN` -/
def isWgKey (t : Text) : Bool :=
  t.length = 44 &&
    (t.take 42).all (fun u => isLetter u || isDigit u || u = ch '+' || u = ch '/') &&
    (js "AEIMQUYcgkosw480").contains (t.getD 42 0) && t.getD 43 0 = ch '='

/-- The texts of an array that has nothing else. -/
def texts : List Value → Option (List Text)
  | [] => some []
  | .str t :: vs => (texts vs).map (t :: ·)
  | _ :: _ => none

def exactKeys (fields : List (Text × Value)) (want : List String) : Bool :=
  (keys fields).isPerm (want.map js)

def validateId : Value → Except Thrown Text
  | .str t => if isUuid t then .ok t else .error (.spec (js "spec_id"))
  | _ => .error (.spec (js "spec_id"))

def validatePeer : Value → Except Thrown Text
  | .str t => do
    if (← checkPeerIp t) = some t then .ok t else .error (.spec (js "spec_peer"))
  | _ => .error (.spec (js "spec_peer"))

def validateNets : Value → Except Thrown (List Text)
  | .arr items =>
    match texts items with
    | some nets => if agentNetsAllowed nets then .ok nets else .error (.spec (js "spec_nets"))
    | none => .error (.spec (js "spec_nets"))
  | _ => .error (.spec (js "spec_nets"))

/-- The part of `validateSpec` for each technique. -/
def validateTech (fields : List (Text × Value)) : Except Thrown Tech :=
  let o := Value.obj fields
  if (o.get (js "tech")).isOneOf [js "ipsec"] then
    if exactKeys fields ["id", "tech", "peerIp", "nets", "psk"] then
      match o.get (js "psk") with
      | .str psk => if isPsk psk then .ok (.ipsec psk) else .error (.spec (js "spec_psk"))
      | _ => .error (.spec (js "spec_psk"))
    else .error (.spec (js "spec_fields"))
  else if (o.get (js "tech")).isOneOf [js "wireguard"] then
    if exactKeys fields ["id", "tech", "peerIp", "nets", "publicKey", "presharedKey"] then
      match o.get (js "publicKey"), o.get (js "presharedKey") with
      | .str publicKey, .str presharedKey =>
        if isWgKey publicKey && isWgKey presharedKey then .ok (.wireguard publicKey presharedKey)
        else .error (.spec (js "spec_key"))
      | _, _ => .error (.spec (js "spec_key"))
    else .error (.spec (js "spec_fields"))
  else .error (.spec (js "spec_tech"))

def validateSpec : Value → Except Thrown TunnelSpec
  | .obj fields => do
    let o := Value.obj fields
    let id ← validateId (o.get (js "id"))
    let peerIp ← validatePeer (o.get (js "peerIp"))
    let nets ← validateNets (o.get (js "nets"))
    let tech ← validateTech fields
    return ⟨id, peerIp, nets, tech⟩
  | _ => .error (.spec (js "spec_shape"))

/-! ## The file of a connection -/

def connName (id : Text) : Text := js "klick-" ++ id

/-- `SITE_SERVICE_ADDRESS` -/
def siteServiceAddress : Text := js "10.21.0.1"

/-- `renderSwanctl`: the lines of the file of an IPsec tunnel. -/
def renderSwanctl (id peerIp psk : Text) (nets : List Text) (serverIp : Text) : Text :=
  let name := connName id
  join 10 [
    js "# Klick Standort-Tunnel " ++ id ++
      js " (verwaltet von klick-netz, nicht von Hand ändern)",
    js "connections \x7b",
    js "  " ++ name ++ js " \x7b",
    js "    version = 2",
    js "    local_addrs = " ++ serverIp,
    js "    remote_addrs = " ++ peerIp,
    js "    proposals = aes256gcm16-prfsha384-ecp384,aes256-sha256-modp2048",
    js "    rekey_time = 8h",
    js "    dpd_delay = 30s",
    js "    mobike = no",
    js "    local \x7b",
    js "      auth = psk",
    js "      id = " ++ serverIp,
    js "    \x7d",
    js "    remote \x7b",
    js "      auth = psk",
    js "      id = " ++ peerIp,
    js "    \x7d",
    js "    children \x7b",
    js "      " ++ name ++ js " \x7b",
    js "        local_ts = " ++ siteServiceAddress ++ js "/32",
    js "        remote_ts = " ++ join (ch ',') nets,
    js "        esp_proposals = aes256gcm16-ecp384,aes256-sha256-modp2048",
    js "        rekey_time = 1h",
    js "        start_action = start",
    js "        dpd_action = restart",
    js "        close_action = start",
    js "      \x7d",
    js "    \x7d",
    js "  \x7d",
    js "\x7d",
    js "secrets \x7b",
    js "  ike-" ++ name ++ js " \x7b",
    js "    id-1 = " ++ serverIp,
    js "    id-2 = " ++ peerIp,
    js "    secret = \"" ++ psk ++ js "\"",
    js "  \x7d",
    js "\x7d",
    js ""]

/-! ## What a valid specification is -/

theorem parses_of_allowedFrom {ns : List Text} {ranges : List IpRange}
    (h : allowedFrom ranges ns = true) : ∀ n ∈ ns, (parseCidr n).isSome = true := by
  induction ns generalizing ranges with
  | nil => exact fun n hn => absurd hn List.not_mem_nil
  | cons m ns ih =>
    unfold allowedFrom at h
    cases hm : parseCidr m with
    | none => simp [hm] at h
    | some r =>
      simp only [hm, Bool.and_eq_true] at h
      intro n hn
      rcases List.mem_cons.mp hn with rfl | hn
      · simp [hm]
      · exact ih h.2 n hn

theorem validateNets_spec {v : Value} {nets : List Text} (h : validateNets v = .ok nets) :
    nets ≠ [] ∧ ∀ n ∈ nets, (parseCidr n).isSome = true := by
  unfold validateNets at h
  split at h
  · split at h
    · split at h
      · rename_i hok
        cases h
        simp only [agentNetsAllowed, Bool.and_eq_true, decide_eq_true_eq] at hok
        exact ⟨hok.1.1, parses_of_allowedFrom hok.2⟩
      · cases h
    · cases h
  · cases h

/-- The networks of a valid specification can be read, and there is at least one. -/
theorem validateSpec_nets {v : Value} {spec : TunnelSpec} (h : validateSpec v = .ok spec) :
    spec.nets ≠ [] ∧ ∀ n ∈ spec.nets, (parseCidr n).isSome = true := by
  unfold validateSpec at h
  split at h
  · simp only [bind, Except.bind, pure, Except.pure] at h
    split at h
    · cases h
    · split at h
      · cases h
      · split at h
        · cases h
        · rename_i nets hnets
          split at h
          · cases h
          · cases h
            exact validateNets_spec hnets
  · cases h

end Klick.SiteTunnels
