-- Requests to addresses that others choose (`ssrf.ts`, `fetcher.ts` and `lib/net/pinned-https.ts`):
-- the form of a URL is checked, its host is resolved, and the request goes to the address
-- that was checked. A redirect goes through the same checks.
import Klick.AddressReading

open Js

namespace Klick.QuickCheck

/-! ## Targets -/

/-- A `URL`, as far as the program reads it. -/
structure Url where
  href : Text
  protocol : Text
  username : Text
  password : Text
  hostname : Text
  port : Text
  pathname : Text
  search : Text
deriving DecidableEq

inductive TargetError
  | invalidUrl | protocol | credentials | port | host | blockedAddress | dns
deriving DecidableEq, Repr

/-- The names of `BLOCKED_HOST`. -/
def blockedNames : List Text :=
  [js "localhost", js "local", js "internal", js "intranet", js "lan", js "home", js "corp",
    js "localdomain"]

/-- `BLOCKED_HOST.test(host)`: the last label is one of the names. -/
def isBlockedHost (host : Text) : Bool := lowerAscii (afterLast (ch '.') host) ∈ blockedNames

/-- `host.replace(/^\[|\]$/g, "")` -/
def stripBrackets (host : Text) : Text :=
  let h := if host.head? = some (ch '[') then host.tail else host
  if h.getLast? = some (ch ']') then h.dropLast else h

section Urls

-- `new URL(text, base)`; `none` where it throws
variable (newUrl : Text → Option Url → Option Url)

/-- `validateTargetUrl` -/
def validateTargetUrl (raw : Text) : Except RangeError (Except TargetError Url) :=
  match newUrl (trim raw) none with
  | none => .ok (.error .invalidUrl)
  | some url =>
    if url.protocol ≠ js "https:" ∧ url.protocol ≠ js "http:" then .ok (.error .protocol)
    else if url.username ≠ [] ∨ url.password ≠ [] then .ok (.error .credentials)
    else if url.port ≠ [] ∧ url.port ≠ js "80" ∧ url.port ≠ js "443" then .ok (.error .port)
    else
      let host := stripBrackets url.hostname
      if host = [] ∨ isBlockedHost host = true ∨ (ch '.' ∉ host ∧ isIP host = 0) then
        .ok (.error .host)
      else if isIP host = 0 then .ok (.ok url)
      else (isBlockedAddress host).map fun blocked =>
        if blocked then .error .blockedAddress else .ok url

end Urls

/-! ## Resolving -/

/-- An answer of a resolver. -/
structure Resolved where
  address : Text
  family : ℕ
deriving DecidableEq

/-- `addrs.some((a) => isBlockedAddress(a.address))` -/
def someBlocked : List Resolved → Except RangeError Bool
  | [] => .ok false
  | a :: rest => (isBlockedAddress a.address).bind fun blocked =>
    if blocked then .ok true else someBlocked rest

/-- `resolvePublic`; a resolver that throws has no answer. -/
def resolvePublic (resolve : Text → Option (List Resolved)) (host : Text) :
    Except RangeError (Except TargetError Resolved) :=
  let literal := stripBrackets host
  if isIP literal ≠ 0 then
    (isBlockedAddress literal).map fun blocked =>
      if blocked then .error .blockedAddress else .ok ⟨literal, isIP literal⟩
  else
    match resolve host with
    | none => .ok (.error .dns)
    | some addrs =>
      if addrs = [] then .ok (.error .dns)
      else (someBlocked addrs).map fun blocked =>
        if blocked then .error .blockedAddress
        else
          match (addrs.find? fun a => a.family = 4).or addrs.head? with
          | none => .error .dns
          | some first => .ok ⟨first.address, if first.family = 6 then 6 else 4⟩

/-! ## Fetching -/

inductive Method
  | get | head | post
deriving DecidableEq, Repr

/-- A request, with the address that it is pinned to. -/
structure Request where
  protocol : Text
  hostname : Text
  port : Text
  path : Text
  method : Method
  address : Text
  family : ℕ
  maxBytes : ℕ
  timeoutMs : ℤ
deriving DecidableEq

structure TlsInfo where
  protocol : Option Text
  validTo : Option Text
  issuer : Option Text
  authorized : Bool
  authError : Option Text
deriving DecidableEq

/-- What a server answers. -/
structure Answer where
  url : Text
  status : ℕ
  headers : List (Text × Text)
  body : Text
  truncated : Bool
  tls : Option TlsInfo
deriving DecidableEq

structure FetchResult extends Answer where
  redirects : List Text
deriving DecidableEq

inductive FetchError
  | target (e : TargetError)
  | budget | timeout | network | redirects
deriving DecidableEq, Repr

/-- What is thrown: nobody catches it. -/
inductive Thrown
  | range | invalidUrl
deriving DecidableEq, Repr

inductive Outcome
  | ok (res : FetchResult)
  | error (e : FetchError)
  | thrown (e : Thrown)
deriving DecidableEq

/-- The network and the clock, hop by hop. -/
structure Net where
  now : ℕ → ℤ
  /-- Requests of others from the same budget. -/
  spent : ℕ → ℤ
  resolve : ℕ → Text → Option (List Resolved)
  /-- `once`; the message of an error. -/
  once : ℕ → Request → Except Text Answer

structure FetchOpts where
  requests : ℤ
  deadline : ℤ
  maxBytes : Option ℕ
  method : Option Method
  maxRedirects : Option ℕ

def FetchOpts.hops (opts : FetchOpts) : ℕ := opts.maxRedirects.getD 5

/-- A hop ends the call, or the server sends it on. -/
inductive Hop
  | ended (outcome : Outcome) (sent : Option Request)
  | redirected (sent : Request) (url : Url) (location : Text)

def requestTo (opts : FetchOpts) (url : Url) (pinned : Resolved) (left : ℤ) : Request where
  protocol := url.protocol
  hostname := url.hostname
  port := if url.port ≠ [] then url.port else if url.protocol = js "https:" then js "443" else js "80"
  path := url.pathname ++ url.search
  method := opts.method.getD .get
  address := pinned.address
  family := pinned.family
  maxBytes := opts.maxBytes.getD (2 * 1024 * 1024)
  timeoutMs := min 10000 left

def Answer.location (res : Answer) : Option Text :=
  if res.status ∈ [301, 302, 303, 307, 308] then
    (res.headers.find? fun h => h.1 = js "location").map Prod.snd
  else none

section Calls

variable (newUrl : Text → Option Url → Option Url) (net : Net) (opts : FetchOpts)

/-- The body of the loop, up to a redirect. -/
def fetchHop (hop : ℕ) (redirects : List Text) (current : Text) : Hop :=
  let left := opts.deadline - net.now hop
  if opts.requests - hop - net.spent hop ≤ 0 ∨ left ≤ 0 then .ended (.error .budget) none
  else
    match validateTargetUrl newUrl current with
    | .error _ => .ended (.thrown .range) none
    | .ok (.error e) => .ended (.error (.target e)) none
    | .ok (.ok url) =>
      match resolvePublic (net.resolve hop) url.hostname with
      | .error _ => .ended (.thrown .range) none
      | .ok (.error e) => .ended (.error (.target e)) none
      | .ok (.ok pinned) =>
        let request := requestTo opts url pinned left
        match net.once hop request with
        | .error message =>
          .ended (.error (if message = js "timeout" then .timeout else .network)) (some request)
        | .ok res =>
          match res.location with
          | some location => .redirected request url location
          | none => .ended (.ok { res with redirects }) (some request)

/-- What a call sends, and how it ends. -/
structure Call where
  sent : List Request
  outcome : Outcome

def fetchFrom : ℕ → ℕ → List Text → Text → Call
  | 0, _, _, _ => ⟨[], .error .redirects⟩
  | n + 1, hop, redirects, current =>
    match fetchHop newUrl net opts hop redirects current with
    | .ended outcome sent => ⟨sent.toList, outcome⟩
    | .redirected sent url location =>
      match newUrl location (some url) with
      | none => ⟨[sent], .thrown .invalidUrl⟩
      | some next =>
        let rest := fetchFrom n (hop + 1) (redirects ++ [current]) next.href
        ⟨sent :: rest.sent, rest.outcome⟩

/-- `safeFetch` -/
def safeFetch (raw : Text) : Call := fetchFrom newUrl net opts (opts.hops + 1) 0 [] raw

end Calls

/-! ## Pinned requests -/

inductive PinnedError
  | blockedAddress | dns | timeout | network | tooLarge
deriving DecidableEq, Repr

structure PinnedResponse where
  status : ℕ
  body : Text
  headers : List (Text × Text)
deriving DecidableEq

/-- A request to a host that the caller chose. -/
structure PinnedRequest extends Request where
  headers : List (Text × Text)
  body : Option (List UInt8)
deriving DecidableEq

structure PinnedOpts where
  method : Method
  headers : List (Text × Text)
  body : Option (List UInt8)
  timeoutMs : ℤ
  maxBytes : ℕ

structure PinnedCall where
  sent : List PinnedRequest
  outcome : Except PinnedError PinnedResponse ⊕ Thrown

/-- `pinnedHttpsRequest`; how the exchange ends is for the platform to say. -/
def pinnedHttpsRequest (resolve : Text → Option (List Resolved))
    (exchange : PinnedRequest → Except PinnedError PinnedResponse) (url : Url)
    (opts : PinnedOpts) : PinnedCall :=
  match resolvePublic resolve url.hostname with
  | .error _ => ⟨[], .inr .range⟩
  | .ok (.error e) => ⟨[], .inl (.error (if e = .dns then .dns else .blockedAddress))⟩
  | .ok (.ok pinned) =>
    let request : PinnedRequest :=
      { protocol := js "https:"
        hostname := url.hostname
        port := js "443"
        path := url.pathname ++ url.search
        method := opts.method
        address := pinned.address
        family := pinned.family
        maxBytes := opts.maxBytes
        timeoutMs := opts.timeoutMs
        headers := opts.headers ++
          (match opts.body with
            | some body => [(js "content-length", decimal body.length)]
            | none => []) ++ [(js "accept-encoding", js "identity")]
        body := opts.body }
    ⟨[request], .inl (exchange request)⟩

/-! ## No request to an internal address -/

/-- The request goes to an address of the public network. -/
def Request.Public (r : Request) : Prop := ∃ a, addressOf r.address = some a ∧ a.Public

/-- Nothing that a call sends goes to an internal address, it sends at most so many requests, and
it throws nothing. -/
structure Call.Safe (c : Call) (limit : ℕ) : Prop where
  sent : ∀ r ∈ c.sent, r.Public
  count : c.sent.length ≤ limit
  caught : ∀ e, c.outcome ≠ .thrown e

structure PinnedCall.Safe (c : PinnedCall) : Prop where
  sent : ∀ r ∈ c.sent, r.toRequest.Public
  count : c.sent.length ≤ 1
  caught : ∀ e, c.outcome ≠ .inr e

section Rules

variable (newUrl : Text → Option Url → Option Url) (net : Net) (opts : FetchOpts) (raw : Text)

/-- The URLs that a call comes to, by the redirects that servers send. -/
inductive Visits : ℕ → List Text → Text → Prop
  | start : Visits 0 [] raw
  | next {hop : ℕ} {redirects : List Text} {current : Text} {sent : Request} {url next : Url}
      {location : Text} (h : Visits hop redirects current) (hhop : hop < opts.hops)
      (hsent : fetchHop newUrl net opts hop redirects current = .redirected sent url location)
      (hnext : newUrl location (some url) = some next) :
      Visits (hop + 1) (redirects ++ [current]) next.href

/-- Each server that redirects names a location that is a URL. -/
def LocationsParse : Prop :=
  ∀ hop redirects current, Visits newUrl net opts raw hop redirects current →
    ∀ sent url location, fetchHop newUrl net opts hop redirects current =
      .redirected sent url location → newUrl location (some url) ≠ none

end Rules

variable {newUrl : Text → Option Url → Option Url} {net : Net} {opts : FetchOpts}

theorem isBlockedAddress_map {α : Type} (ip : Text) (f : Bool → α) :
    ∃ blocked, (isBlockedAddress ip).map f = .ok (f blocked) ∧
      (blocked = false ↔ ∃ a, addressOf ip = some a ∧ a.Public) := by
  obtain ⟨blocked, hblocked, hpublic⟩ := isBlockedAddress_spec ip
  refine ⟨blocked, ?_, hpublic⟩
  rw [hblocked]
  rfl

theorem validateTargetUrl_ok (newUrl : Text → Option Url → Option Url) (raw : Text) :
    ∃ r, validateTargetUrl newUrl raw = .ok r := by
  unfold validateTargetUrl
  split
  · exact ⟨_, rfl⟩
  · dsimp only
    split_ifs
    · exact ⟨_, rfl⟩
    · exact ⟨_, rfl⟩
    · exact ⟨_, rfl⟩
    · exact ⟨_, rfl⟩
    · exact ⟨_, rfl⟩
    · obtain ⟨blocked, hmap, -⟩ := isBlockedAddress_map _ _
      exact ⟨_, hmap⟩

/-- All addresses of an answer pass, or the answer does not. -/
theorem someBlocked_spec (addrs : List Resolved) : ∃ blocked, someBlocked addrs = .ok blocked ∧
    (blocked = false → ∀ a ∈ addrs, ∃ x, addressOf a.address = some x ∧ x.Public) := by
  induction addrs with
  | nil => exact ⟨false, rfl, by simp⟩
  | cons a rest ih =>
    obtain ⟨blocked, hblocked, hpublic⟩ := isBlockedAddress_spec a.address
    obtain ⟨others, hothers, hrest⟩ := ih
    unfold someBlocked
    rw [hblocked, hothers]
    cases blocked with
    | true => exact ⟨true, rfl, by simp⟩
    | false => exact ⟨others, rfl, fun h => List.forall_mem_cons.mpr ⟨hpublic.mp rfl, hrest h⟩⟩

/-- **What a host is resolved to is an address of the public network.** -/
theorem resolvePublic_spec (resolve : Text → Option (List Resolved)) (host : Text) :
    ∃ r, resolvePublic resolve host = .ok r ∧
      ∀ pinned, r = .ok pinned → ∃ a, addressOf pinned.address = some a ∧ a.Public := by
  unfold resolvePublic
  dsimp only
  split_ifs with hliteral
  · obtain ⟨blocked, hmap, hpublic⟩ := isBlockedAddress_map (stripBrackets host) fun blocked =>
      if blocked then (.error .blockedAddress : Except TargetError Resolved)
      else .ok ⟨stripBrackets host, isIP (stripBrackets host)⟩
    refine ⟨_, hmap, fun pinned h => ?_⟩
    cases blocked with
    | true => cases h
    | false =>
      cases h
      exact hpublic.mp rfl
  · split
    · exact ⟨_, rfl, fun pinned h => nomatch h⟩
    · rename_i addrs hresolve
      split_ifs with hempty
      · exact ⟨_, rfl, fun pinned h => nomatch h⟩
      · obtain ⟨blocked, hblocked, hall⟩ := someBlocked_spec addrs
        rw [hblocked]
        refine ⟨_, rfl, fun pinned h => ?_⟩
        cases blocked with
        | true => cases h
        | false =>
          dsimp only at h
          rw [if_neg (by simp)] at h
          split at h
          · cases h
          · rename_i first hfirst
            cases h
            refine hall rfl first ?_
            rcases Option.or_eq_some_iff.mp hfirst with hfind | ⟨-, hhead⟩
            · exact List.mem_of_find?_eq_some hfind
            · exact List.mem_of_head? hhead

variable (newUrl net opts) in
/-- A hop throws nothing, and what it sends goes to the public network. -/
theorem fetchHop_spec (hop : ℕ) (redirects : List Text) (current : Text) :
    match fetchHop newUrl net opts hop redirects current with
    | .ended outcome sent => (∀ e, outcome ≠ .thrown e) ∧ ∀ r ∈ sent, r.Public
    | .redirected sent _ _ => sent.Public := by
  unfold fetchHop
  dsimp only
  split_ifs with hbudget
  · exact ⟨by simp, by simp⟩
  · obtain ⟨r, hr⟩ := validateTargetUrl_ok newUrl current
    rw [hr]
    cases r with
    | error e => exact ⟨by simp, by simp⟩
    | ok url =>
      obtain ⟨r, hr, hpublic⟩ := resolvePublic_spec (net.resolve hop) url.hostname
      dsimp only
      rw [hr]
      cases r with
      | error e => exact ⟨by simp, by simp⟩
      | ok pinned =>
        have hsent : (requestTo opts url pinned (opts.deadline - net.now hop)).Public :=
          hpublic pinned rfl
        dsimp only
        cases net.once hop (requestTo opts url pinned (opts.deadline - net.now hop)) with
        | error message =>
          refine ⟨by simp, fun r hr => ?_⟩
          cases hr
          exact hsent
        | ok res =>
          dsimp only
          cases res.location with
          | some location => exact hsent
          | none =>
            refine ⟨by simp, fun r hr => ?_⟩
            cases hr
            exact hsent

variable (newUrl net opts) in
/-- What is sent from some hop on. -/
theorem fetchFrom_sent (n hop : ℕ) (redirects : List Text) (current : Text) :
    (∀ r ∈ (fetchFrom newUrl net opts n hop redirects current).sent, r.Public) ∧
      (fetchFrom newUrl net opts n hop redirects current).sent.length ≤ n := by
  induction n generalizing hop redirects current with
  | zero => exact ⟨by simp [fetchFrom], by simp [fetchFrom]⟩
  | succ n ih =>
    have hhop := fetchHop_spec newUrl net opts hop redirects current
    unfold fetchFrom
    split at hhop
    · rename_i outcome sent heq
      cases sent with
      | none => exact ⟨by simp, by simp⟩
      | some r => exact ⟨by simpa using hhop.2, by simp⟩
    · rename_i sent url location heq
      cases newUrl location (some url) with
      | none => exact ⟨by simpa using hhop, by simp⟩
      | some next =>
        obtain ⟨hpublic, hlen⟩ := ih (hop + 1) (redirects ++ [current]) next.href
        exact ⟨List.forall_mem_cons.mpr ⟨hhop, hpublic⟩, Nat.succ_le_succ hlen⟩

/-- A hop that is visited goes on as the call does. -/
theorem visits_outcome {raw : Text} {hop : ℕ} {redirects : List Text} {current : Text}
    (h : Visits newUrl net opts raw hop redirects current) : hop ≤ opts.hops ∧
      (safeFetch newUrl net opts raw).outcome =
        (fetchFrom newUrl net opts (opts.hops - hop + 1) hop redirects current).outcome := by
  induction h with
  | start => exact ⟨Nat.zero_le _, rfl⟩
  | @next k _ _ _ _ _ _ _ hhop hsent hnext ih =>
    have hleft : opts.hops - k = opts.hops - (k + 1) + 1 := by omega
    refine ⟨hhop, ih.2.trans ?_⟩
    rw [fetchFrom, hsent]
    dsimp only
    rw [hnext, hleft]

/-- Where all locations are URLs, nothing is thrown from a hop on. -/
theorem fetchFrom_caught {raw : Text} (hparse : LocationsParse newUrl net opts raw) {n hop : ℕ}
    {redirects : List Text} {current : Text}
    (h : Visits newUrl net opts raw hop redirects current) (hn : hop + n = opts.hops + 1)
    (e : Thrown) : (fetchFrom newUrl net opts n hop redirects current).outcome ≠ .thrown e := by
  induction n generalizing hop redirects current with
  | zero => simp [fetchFrom]
  | succ n ih =>
    have hhop := fetchHop_spec newUrl net opts hop redirects current
    unfold fetchFrom
    split at hhop
    · exact hhop.1 e
    · rename_i sent url location heq
      cases hnext : newUrl location (some url) with
      | none => exact absurd hnext (hparse hop redirects current h sent url location heq)
      | some next =>
        -- the last hop may be redirected once more, and then there is none left
        cases n with
        | zero => simp [fetchFrom]
        | succ n => exact ih (.next h (by omega) heq hnext) (by omega)

/-- **No request goes to an internal address**, none too many is sent, and a call throws nothing
if and only if each server that redirects it names a URL. -/
theorem fetch_stays_outside (newUrl : Text → Option Url → Option Url) (net : Net) (opts : FetchOpts)
    (raw : Text) (resolve : Text → Option (List Resolved))
    (exchange : PinnedRequest → Except PinnedError PinnedResponse) (url : Url)
    (pinnedOpts : PinnedOpts) :
    ((safeFetch newUrl net opts raw).Safe (opts.hops + 1) ∧
      (pinnedHttpsRequest resolve exchange url pinnedOpts).Safe) ↔
      LocationsParse newUrl net opts raw := by
  have hpinned : (pinnedHttpsRequest resolve exchange url pinnedOpts).Safe := by
    unfold pinnedHttpsRequest
    obtain ⟨r, hr, hpublic⟩ := resolvePublic_spec resolve url.hostname
    rw [hr]
    cases r with
    | error e => exact ⟨by simp, by simp, by simp⟩
    | ok pinned =>
      refine ⟨fun r hr => ?_, by simp, by simp⟩
      rw [List.mem_singleton.mp hr]
      exact hpublic pinned rfl
  constructor
  · rintro ⟨hsafe, -⟩ hop redirects current hvisits sent url location heq hnone
    apply hsafe.caught .invalidUrl
    rw [(visits_outcome hvisits).2, fetchFrom, heq]
    dsimp only
    rw [hnone]
  · intro hparse
    obtain ⟨hpublic, hlen⟩ := fetchFrom_sent newUrl net opts (opts.hops + 1) 0 [] raw
    exact ⟨⟨hpublic, hlen, fetchFrom_caught hparse .start (by omega)⟩, hpinned⟩

/-! ## A location that is no URL -/

def siteUrl : Url :=
  ⟨js "https://a.example/", js "https:", [], [], js "a.example", [], js "/", []⟩

/-- A parser that knows one site; `http://` has no host and is no URL. -/
def oneSite (text : Text) (_ : Option Url) : Option Url :=
  if text = js "https://a.example/" then some siteUrl else none

/-- A server that sends everybody to `http://`. -/
def lostServer : Net where
  now _ := 0
  spent _ := 0
  resolve _ _ := some [⟨js "93.184.216.34", 4⟩]
  once _ _ := .ok ⟨js "https://a.example/", 302, [(js "location", js "http://")], [], false, none⟩

theorem lost_redirect_throws :
    (safeFetch oneSite lostServer ⟨10, 1000, none, none, none⟩ (js "https://a.example/")).outcome =
        .thrown .invalidUrl ∧
      ¬ (safeFetch oneSite lostServer ⟨10, 1000, none, none, none⟩
        (js "https://a.example/")).Safe 6 := by
  have hthrown : (safeFetch oneSite lostServer ⟨10, 1000, none, none, none⟩
      (js "https://a.example/")).outcome = .thrown .invalidUrl := by
    decide
  exact ⟨hthrown, fun h => h.caught _ hthrown⟩

end Klick.QuickCheck
