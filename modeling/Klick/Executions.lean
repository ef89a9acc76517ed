-- Runs that are carried out: lines one after the other, on a given platform. A
-- short run on a platform of constants has every kind of approval in it, and
-- the laws of all runs are tried on it.
import Klick.Runs

open Js

namespace Klick

/-! ## Lines one after the other -/

structure SocketLine where
  scope : By
  world : World
  text : Text

def SocketLine.action (l : SocketLine) : Action := .line l.scope l.world l.text

/-- The signer after some lines, and what was recorded. -/
def execute (P : Platform) : List SocketLine → Signer × List Timed → Signer × List Timed
  | [], r => r
  | l :: ls, (g, es) =>
    let h := handleLine P l.scope g l.world l.text
    execute P ls (h.signer, es ++ h.recorded.map fun e => ⟨l.world.clock.now, e⟩)

/-- Lines that are carried out make a run longer. -/
theorem Run.execute {P : Platform} {as : List Action} {g : Signer} {es : List Timed}
    (h : Run P as g es) (ls : List SocketLine) :
    Run P (as ++ ls.map SocketLine.action) (execute P ls (g, es)).1 (execute P ls (g, es)).2 := by
  induction ls generalizing as g es with
  | nil =>
    rw [List.map_nil, List.append_nil]
    exact h
  | cons l ls ih =>
    have hl := ih (h.line l.scope l.world l.text)
    rw [List.append_assoc] at hl
    exact hl

/-! ## Lines that are written from values -/

def written (v : Value) : Text := (canonicalJson v).toOption.getD []

/-- A line that is written from a value is handled as the value. -/
theorem handleLine_written (P : Platform) (scope : By) (g : Signer) (w : World) {v : Value}
    (hd : v.Distinct) (hw : (canonicalJson v).isOk = true) :
    handleLine P scope g w (written v) = handleRequest P scope g w (.ofParsed v hd) := by
  cases ht : canonicalJson v with
  | error e => rw [ht] at hw; cases hw
  | ok t =>
    have htext : written v = t := by rw [written, ht]; rfl
    have hp := (written_of_canonicalJson ht hd).parseJson
    rw [htext]
    unfold handleLine
    split
    · rename_i e he
      rw [hp] at he
      cases he
    · rename_i v' hv'
      obtain rfl := Except.ok.inj (hp.symm.trans hv')
      congr 1
      rw [Json.ofParsed, Json.ofParsed, Json.mk.injEq]
      exact canon_canon v

def requestLine (cmd : String) (args : List (String × Value)) : Text :=
  written (object [("cmd", .text cmd), ("args", object args)])

/-- What comes of a request, without its text where that is read back. -/
def handleValue (P : Platform) (scope : By) (w : World) (v : Value) (r : Signer × List Timed) :
    Signer × List Timed :=
  let h := if hv : v.Distinct ∧ (canonicalJson v).isOk = true then
    handleRequest P scope r.1 w (.ofParsed v hv.1) else handleLine P scope r.1 w (written v)
  (h.signer, r.2 ++ h.recorded.map fun e => ⟨w.clock.now, e⟩)

theorem execute_requestLine (P : Platform) (scope : By) (w : World) (cmd : String)
    (args : List (String × Value)) (ls : List SocketLine) (r : Signer × List Timed) :
    execute P (⟨scope, w, requestLine cmd args⟩ :: ls) r =
      execute P ls
        (handleValue P scope w (object [("cmd", .text cmd), ("args", object args)]) r) := by
  rw [execute, handleValue, requestLine]
  split
  · rename_i hv
    rw [handleLine_written P scope r.1 w hv.1 hv.2]
  · rfl

/-! ## A platform of constants -/

def sampleAddress : Text := js "0x0000000000000000000000000000000000000000"

/-- Libraries that know one address, in which there is no letter to spell. -/
def sampleLib : AddressLib where
  btcDecodes _ _ := false
  ethIsValid _ := true
  ethAddChecksum _ := sampleAddress

theorem sampleLib_shapes : AddressShapes sampleLib where
  btc _ _ _ _ _ h := nomatch h
  eth _ _ := by
    change isEthAddr sampleAddress = true
    decide

def zeros (n : ℕ) : Bytes := List.replicate n 0

def samplePlatform : Platform where
  crypto := ⟨zeroHash, fun _ _ => zeros 32, fun _ _ _ => .ok true⟩
  addresses := sampleLib
  keys := {
    words := fun _ => join (ch ' ') (List.replicate 24 (js "zoo"))
    fingerprint := fun _ _ => js "00000000"
    xpub := fun _ _ _ => js "xpub"
    btcKey := fun _ _ _ _ _ => none
    ethKey := fun _ _ _ => some (zeros 32)
    selfTest := fun _ _ => true
    encrypt := fun _ _ _ text => (text, [])
    decrypt := fun _ _ _ cipher _ => some cipher }
  btc := ⟨fun _ => [], fun _ _ => [], fun _ => none, fun _ => none⟩
  eth := ⟨fun _ => sampleAddress, fun _ _ => some ⟨js "0x02", js "0x01", sampleAddress, true⟩⟩
  printable _ := true
  hostname _ := some (js "localhost")

/-- A clock that stands at a time, and stamps at another. -/
def sampleClock (t u : Fin 100) : Clock where
  now := 1800000000 + t.val
  stamp _ := 1800000000 + u.val
  after := 1800000000 + u.val
  isTime := by
    have h : ∀ v : Fin 100, IsTime (1800000000 + v.val) := by
      intro v
      constructor <;> omega
    exact ⟨h t, fun _ => h u, h u⟩

/-- Everything is written, and the random bytes of a line are those of its number. -/
def sampleWorld (line : ℕ) (t u : Fin 100) : World where
  clock := sampleClock t u
  random := ⟨fun k n => List.replicate n (UInt8.ofNat (16 * line + k)), by simp⟩
  writes _ := true
  writesSeeds := true
  kekNext := none

/-- The random text of a line, by the number of the request. -/
def drawn (line k : ℕ) : Value := .str (toHex (List.replicate 16 (UInt8.ofNat (16 * line + k))))

/-! ## The lines of a short run -/

def base64 (bs : Bytes) : Value := .str (toBase64Url bs)

def samplePerson : String := "11111111-1111-4111-8111-111111111111"
def sampleGrantee : String := "22222222-2222-4222-8222-222222222222"
def sampleAccount : String := "33333333-3333-4333-8333-333333333333"
def sampleOrg : String := "44444444-4444-4444-8444-444444444444"
def sampleMandateId : String := "55555555-5555-4555-8555-555555555555"

/-- A policy of one key, without delays, for small amounts of Ether. -/
def samplePolicy (version : ℤ) (perDay : String) : Value :=
  object [("version", .int version), ("prev", .str (toHex (zeros 32))), ("mode", .text "solo"),
    ("soloMinKeys", .int 1), ("soloDelaySec", .int 0), ("whitelistCooldownSec", .int 0),
    ("approvalWindowSec", .int 3600), ("limits", object [("ETH", limitValue "1000" perDay)]),
    ("feeCaps", defaultFeeCaps), ("networks", .arr [.text "ethereum_sepolia"]),
    ("liveFunds", .bool false)]

/-- A mandate for one payout, which ends one second after the sample begins. -/
def sampleMandate : Mandate where
  orgId := js sampleOrg
  mandateId := js sampleMandateId
  grantee := js sampleGrantee
  network := .ethereumSepolia
  chainId := some 11155111
  asset := .eth
  perPayout := 1000
  total := 1000
  destinations := [sampleAddress]
  validFrom := 1800000000
  validUntil := 1800000001
  issuer := js samplePerson
  nonce := toHex (zeros 16)

def sampleClientData (type : String) : Value :=
  base64 (utf8 (written (object [("type", .text type), ("challenge", base64 (zeros 32)),
    ("origin", .text "http://localhost")])))

/-- Authenticator data with user presence and user verification. -/
def sampleAuthData (flags : UInt8) (credential : Bytes) : Value :=
  base64 (zeros 32 ++ flags :: zeros 4 ++ credential)

/-- A credential of sixteen bytes, with a COSE key of zeros. -/
def sampleCredential : Bytes :=
  zeros 16 ++ [0, 16] ++ zeros 16 ++ [0xa5, 1, 2, 3, 0x26, 0x20, 1, 0x21, 0x58, 32] ++ zeros 32 ++
    [0x22, 0x58, 32] ++ zeros 32

def assertionArgs : List (String × Value) :=
  [("credId", base64 (zeros 16)), ("authenticatorData", sampleAuthData 5 []),
    ("clientDataJSON", sampleClientData "webauthn.get"), ("signature", base64 [0])]

def payoutArgs (initiator : String) : List (String × Value) :=
  [("kind", .text "payout"), ("initiator", .text initiator), ("accountId", .text sampleAccount),
    ("asset", .text "ETH"), ("amount", .text "1000"), ("feeCap", .text "21000000000000"),
    ("destination", .str sampleAddress)]

def signArgs (line : ℕ) (nonce : String) : List (String × Value) :=
  [("intentId", drawn line 0), ("mode", .text "first"),
    ("plan", object [("nonce", .text nonce), ("gasLimit", .text "21000"),
      ("maxFeePerGas", .text "1000000000"), ("maxPriorityFeePerGas", .text "1000000")])]

def sampleLines : List SocketLine := [
  ⟨.admin, sampleWorld 0 0 0, requestLine "seed.prepare"
    [("networks", .arr [.text "ethereum_sepolia"])]⟩,
  ⟨.admin, sampleWorld 1 0 0, requestLine "init.commit" [("token", drawn 0 1),
    ("checks", object [("ethereum_sepolia",
      object [("1", .text "zoo"), ("2", .text "zoo"), ("3", .text "zoo")])]),
    ("orgId", .text sampleOrg), ("rpId", .text "localhost"),
    ("origin", .text "http://localhost")]⟩,
  ⟨.admin, sampleWorld 2 0 0, requestLine "enrol.start" [("person", .text samplePerson)]⟩,
  ⟨.app, sampleWorld 3 0 0, requestLine "enrol.finish" [("enrolId", drawn 2 0),
    ("credId", base64 (zeros 16)), ("spki", base64 (spkiP256Prefix ++ 4 :: zeros 64)),
    ("authenticatorData", sampleAuthData 0x45 sampleCredential),
    ("clientDataJSON", sampleClientData "webauthn.create"), ("mac", base64 (zeros 32))]⟩,
  ⟨.app, sampleWorld 4 0 0, requestLine "account.create" [("orgId", .text sampleOrg),
    ("accountId", .text sampleAccount), ("network", .text "ethereum_sepolia")]⟩,
  ⟨.app, sampleWorld 5 0 0, requestLine "intent.create" [("kind", .text "whitelist"),
    ("initiator", .text samplePerson), ("network", .text "ethereum_sepolia"),
    ("destination", .str sampleAddress)]⟩,
  ⟨.app, sampleWorld 6 0 0, requestLine "approve" (("intentId", drawn 5 0) :: assertionArgs)⟩,
  ⟨.admin, sampleWorld 7 0 0, requestLine "policy.set" [("policy", samplePolicy 2 "1000")]⟩,
  ⟨.app, sampleWorld 8 0 0, requestLine "intent.create" (payoutArgs samplePerson)⟩,
  ⟨.app, sampleWorld 9 0 0, requestLine "approve" (("intentId", drawn 8 0) :: assertionArgs)⟩,
  ⟨.app, sampleWorld 10 0 0, requestLine "mandate.create"
    [("text", .str sampleMandate.text)]⟩,
  ⟨.app, sampleWorld 11 0 0, requestLine "mandate.approve"
    (("mandateId", .text sampleMandateId) :: assertionArgs)⟩,
  ⟨.app, sampleWorld 12 0 0, requestLine "intent.create"
    (("mandateId", .text sampleMandateId) :: payoutArgs sampleGrantee)⟩,
  -- the clock moves on before the first payout is stamped
  ⟨.app, sampleWorld 13 0 1, requestLine "sign" (signArgs 12 "0")⟩,
  ⟨.admin, sampleWorld 14 1 1, requestLine "policy.set" [("policy", samplePolicy 3 "2000")]⟩,
  ⟨.app, sampleWorld 15 1 1, requestLine "sign" (signArgs 8 "1")⟩]

def sampleStart : Signer := ⟨true, none, zeros 32, .empty, emptyState, .empty, .empty, none⟩

theorem open_sample : Signer.open samplePlatform ⟨true, none, zeros 32⟩ none .empty =
    .ok sampleStart := rfl

/-- The signer after the sample, and its events. -/
def sample : Signer × List Timed := execute samplePlatform sampleLines (sampleStart, [])

theorem sample_run :
    Run samplePlatform (sampleLines.map SocketLine.action) sample.1 sample.2 :=
  (Run.start open_sample).execute sampleLines

theorem sampleClock_rises {t u : Fin 100} (h : t.val ≤ u.val) : (sampleClock t u).Rises where
  start := by
    change (1800000000 + t.val : ℤ) ≤ 1800000000 + u.val
    omega
  stamps := fun _ _ _ => le_rfl
  last _ := le_rfl

theorem sample_nonDecreasing : NonDecreasing (sampleLines.map SocketLine.action) := by
  have hclocks : clocks (sampleLines.map SocketLine.action) =
      List.replicate 13 (sampleClock 0 0) ++ sampleClock 0 1 ::
        List.replicate 2 (sampleClock 1 1) := rfl
  constructor
  · rw [hclocks]
    intro c hc
    rcases List.mem_append.mp hc with hc | hc
    · rw [List.eq_of_mem_replicate hc]
      exact sampleClock_rises le_rfl
    · rcases List.mem_cons.mp hc with rfl | hc
      · exact sampleClock_rises (Nat.zero_le _)
      · rw [List.eq_of_mem_replicate hc]
        exact sampleClock_rises le_rfl
  · rw [hclocks]
    decide

/-- Every line of the sample draws an id of its own. -/
theorem sample_draws : (drawnIds (sampleLines.map SocketLine.action)).Nodup := by decide

/-! ## What the sample records -/

/-- A first signature for 1000 Wei, one second after the start of the sample. -/
def Timed.signs? (e : Timed) : Option Signed :=
  match e.event.body with
  | .signed d =>
    if d.mode.isFirst ∧ d.asset = .eth ∧ d.amount = 1000 ∧ e.event.time = 1800000001 then some d
    else none
  | _ => none

/-- A payout that is signed in the second in which its mandate is over. -/
def SignerState.signedAtEnd (s : SignerState) (intentId : Text) : Bool :=
  (s.intents.get intentId).any fun r => r.mandateId.any fun id => (s.mandates.get id).any fun m =>
    r.first.any fun x => decide (x.time = m.mandate.validUntil)

/-- The bound per day of the policy of a state. -/
def SignerState.perDay? (s : SignerState) : Option ℤ :=
  s.policy.bind fun policy => ((policy.limit .eth).get (js "perDay")).toBigInt.toOption

/-- The lines before the first signature. -/
def sampleBefore : Signer × List Timed :=
  execute samplePlatform (sampleLines.take 13) (sampleStart, [])

theorem replay_sampleBefore :
    replay sampleLib (events sampleBefore.2) = .ok sampleBefore.1.state :=
  (((Run.start open_sample).execute _).reached sampleLib_shapes).history.replay

/-- The last events are two signatures, and a policy with a higher bound between them. -/
def samplePasses (before r : Signer × List Timed) : Bool :=
  decide (before.2.length = 12) && decide (before.1.state.perDay? = some 1000) &&
    match r.2.drop 12 with
    | [e1, _, e3] => e3.signs?.isSome && e1.signs?.any fun d => r.1.state.signedAtEnd d.intentId
    | _ => false

theorem sample_passes : samplePasses sampleBefore sample = true := by
  unfold sampleBefore sample sampleLines
  simp only [List.take_succ_cons, List.take_zero, execute_requestLine, object, named, Value.text,
    List.map_cons, List.map_nil, payoutArgs, signArgs, assertionArgs, samplePolicy, limitValue,
    defaultFeeCaps, sampleMandate, Mandate.text, Mandate.texts, mandatePrefix, sampleClientData,
    samplePlatform, sampleLib, samplePerson, sampleGrantee, sampleAccount, sampleOrg,
    sampleMandateId, sampleAddress]
  repeat rw [js_ofList]
  decide +kernel

theorem signs_eq_some {e : Timed} {d : Signed} (h : e.signs? = some d) :
    e.event.body = .signed d ∧ d.mode = .first ∧ d.asset = .eth ∧ d.amount = 1000 ∧
      e.event.time = 1800000001 := by
  unfold Timed.signs? at h
  split at h
  · rename_i d' hbody
    split at h
    · rename_i hd
      obtain ⟨hfirst, hasset, hamount, htime⟩ := hd
      obtain rfl := Option.some.inj h
      refine ⟨hbody, ?_, hasset, hamount, htime⟩
      unfold SignMode.isFirst at hfirst
      split at hfirst
      · assumption
      · cases hfirst
    · cases h
  · cases h

theorem signedAtEnd_eq_true {s : SignerState} {k : Text} (h : s.signedAtEnd k = true) :
    ∃ r, s.intents.get k = some r ∧ ∃ id, r.mandateId = some id ∧
      ∃ m, s.mandates.get id = some m ∧ ∃ x, r.first = some x ∧ x.time = m.mandate.validUntil := by
  simpa [SignerState.signedAtEnd, Option.any_eq_true] using h

/-- What was recorded before stays in front of what more lines record. -/
theorem execute_append (P : Platform) (ls ms : List SocketLine) (r : Signer × List Timed) :
    ∃ es, (execute P (ls ++ ms) r).2 = (execute P ls r).2 ++ es := by
  induction ls generalizing r with
  | nil =>
    induction ms generalizing r with
    | nil => exact ⟨[], (List.append_nil _).symm⟩
    | cons m ms ih =>
      obtain ⟨es, h⟩ := ih _
      exact ⟨_, h.trans (List.append_assoc ..)⟩
  | cons l ls ih => exact ih _

theorem sample_end : ∃ pre e1 e2 e3 d1 d3 s, sample.2 = pre ++ [e1, e2, e3] ∧
    e1.signs? = some d1 ∧ e3.signs? = some d3 ∧ sample.1.state.signedAtEnd d1.intentId = true ∧
    replay sampleLib (events pre) = .ok s ∧ s.perDay? = some 1000 := by
  have h := sample_passes
  unfold samplePasses at h
  rw [Bool.and_eq_true, Bool.and_eq_true, decide_eq_true_eq, decide_eq_true_eq] at h
  obtain ⟨⟨hlen, hday⟩, h⟩ := h
  have hes : ∃ es, sample.2 = sampleBefore.2 ++ es :=
    execute_append samplePlatform (sampleLines.take 13) (sampleLines.drop 13) (sampleStart, [])
  obtain ⟨es, hes⟩ := hes
  rw [hes, ← hlen, List.drop_left] at h
  split at h
  · rename_i e1 e2 e3
    rw [Bool.and_eq_true, Option.isSome_iff_exists, Option.any_eq_true] at h
    obtain ⟨⟨d3, h3⟩, d1, h1, hend⟩ := h
    exact ⟨sampleBefore.2, e1, e2, e3, d1, d3, _, hes, h1, h3, hend, replay_sampleBefore, hday⟩
  · cases h

end Klick
