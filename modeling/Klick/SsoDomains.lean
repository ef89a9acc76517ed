-- Whose domain it is: the three places that read the domain text of a provider
-- (`ssoEmailAllowed`, the check of `provisionSsoUser`, the query of `ssoGateForUser`)
-- agree on it exactly where it is one name and nothing else.
import Klick.Distinct
import Klick.SsoPolicy

open Js

namespace Klick.Sso

/-! ## The three rules -/

/-- `domainOf` of `lib/auth/sso-provisioning.ts`. -/
def domainOf (L : LowerCase) (email : Text) : Text := L.lower (afterLast (ch '@') email)

/-- The check at the head of `provisionSsoUser`. -/
def passesDomainCheck (L : LowerCase) (email : Text) (p : SsoProvider) : Bool :=
  p.domainVerified = some true && domainOf L (L.lower email) = L.lower p.domain

structure Member where
  id : Text
  organizationId : Text
  userId : Text
  role : Text
deriving DecidableEq

/-- The tables that the gate reads. -/
structure GateTables where
  email : Text → Option Text
  providers : List SsoProvider
  members : List Member
  ssoPolicy : Text → Value

section Gate

variable (L : LowerCase) (sqlLower : Text → Text)

def orgSsoPolicy (db : GateTables) (orgId : Text) : SsoPolicy := ssoPolicyOf (db.ssoPolicy orgId)

/-- The providers that `ssoGateForUser` takes into account for an address. -/
def gateProviders (db : GateTables) (email : Text) : List SsoProvider :=
  db.providers.filter fun p =>
    sqlLower p.domain = domainOf L email && p.domainVerified = some true

/-- The account owns the organisation. -/
def ownsOrg (db : GateTables) (userId orgId : Text) : Bool :=
  db.members.any fun m =>
    m.userId = userId && m.organizationId = orgId && normalizeRole m.role = .owner

def ssoGateForUser (db : GateTables) (userId : Text) (path : Option Text) : Gate :=
  match db.email userId with
  | none => .allow
  | some email =>
    let orgIds := distinct ((gateProviders L sqlLower db email).filterMap (·.organizationId))
    if orgIds = [] then .allow
    else
      ssoGate path ((orgIds.filter fun o => (orgSsoPolicy db o).enforce).map fun o =>
        ⟨o, ownsOrg db userId o⟩)

/-- An organisation that enforces its sign-on closes all other ways to those it takes into
account. -/
theorem gate_denies {db : GateTables} {p : SsoProvider} {email userId org : Text}
    {path : Option Text} (hp : p ∈ gateProviders L sqlLower db email)
    (hemail : db.email userId = some email) (horg : p.organizationId = some org)
    (henforce : (orgSsoPolicy db org).enforce = true) (hown : ownsOrg db userId org = false)
    (hpath : isSsoCallbackPath path = false) (himp : isImpersonation path = false) :
    ssoGateForUser L sqlLower db userId path = .deny := by
  have hmem : org ∈ distinct ((gateProviders L sqlLower db email).filterMap (·.organizationId)) :=
    mem_distinct.mpr (List.mem_filterMap.mpr ⟨p, hp, horg⟩)
  unfold ssoGateForUser
  rw [hemail]
  dsimp only
  rw [if_neg (List.ne_nil_of_mem hmem)]
  apply ssoGate_eq_deny hpath himp (o := ⟨org, false⟩) _ rfl
  rw [List.mem_map]
  exact ⟨org, List.mem_filter.mpr ⟨hmem, henforce⟩, by rw [hown]⟩

end Gate

/-! ## Addresses -/

/-- An e-mail address: something before its last `@`, and a domain behind it. -/
structure EmailAddress where
  mailbox : Text
  domain : Text
  mailbox_ne : mailbox ≠ []
  domain_ne : domain ≠ []
  domain_units : ∀ u ∈ domain, u ≠ ch '@' ∧ u ≠ ch ',' ∧ isTrimmed u = false

def EmailAddress.text (e : EmailAddress) : Text := e.mailbox ++ ch '@' :: e.domain

section Address

variable (L : LowerCase) (e : EmailAddress)

theorem EmailAddress.at_notMem : ch '@' ∉ e.domain := fun h => (e.domain_units _ h).1 rfl

theorem EmailAddress.trim_domain : trim e.domain = e.domain :=
  trim_eq_self fun u hu => (e.domain_units u hu).2.2

theorem EmailAddress.text_ne : e.text ≠ [] := by
  unfold EmailAddress.text
  simp

/-- The domain of an address, for the check and for the gate. -/
theorem domainOf_text : domainOf L e.text = L.lower e.domain := by
  unfold domainOf EmailAddress.text
  rw [afterLast_append _ e.at_notMem]

theorem domainOf_lower_text : domainOf L (L.lower e.text) = L.lower e.domain := by
  unfold domainOf EmailAddress.text
  rw [L.lower_append _ _ _ (.inl rfl),
    afterLast_append _ fun h => e.at_notMem (L.mem_lower _ _ (.inl rfl) h), L.lower_lower]

/-- The callback lets an address in whose domain is one of the names. -/
theorem ssoEmailAllowed_iff (p : SsoProvider) : ssoEmailAllowed L e.text (some p) = true ↔
    p.domainVerified = some true ∧ L.lower e.domain ∈ p.names L := by
  have hlast : lastIndexOf (ch '@') e.text = some e.mailbox.length :=
    lastIndexOf_append _ e.at_notMem
  have hlen : ¬ e.mailbox.length < 1 := by
    have := List.length_pos_iff.mpr e.mailbox_ne
    omega
  have hdrop : e.text.drop (e.mailbox.length + 1) = e.domain := by
    unfold EmailAddress.text
    simp
  have hpos : 0 < (L.lower e.domain).length :=
    List.length_pos_iff.mpr fun h => e.domain_ne (L.lower_eq_nil _ h)
  unfold ssoEmailAllowed
  dsimp only
  rw [hlast]
  dsimp only
  rw [if_neg hlen, hdrop, e.trim_domain]
  by_cases hv : p.domainVerified = some true
  · rw [if_neg (by simp [hv, e.text_ne])]
    simp only [List.any_eq_true, Bool.and_eq_true, decide_eq_true_eq, hv, true_and]
    constructor
    · rintro ⟨d, hd, -, rfl⟩
      exact hd
    · intro h
      exact ⟨_, h, hpos, rfl⟩
  · rw [if_pos (.inl hv)]
    simp [hv]

end Address

/-! ## Domain texts -/

/-- The text of a provider is one name, with nothing around it. -/
def SsoProvider.OneName (p : SsoProvider) : Prop :=
  ch ',' ∉ p.domain ∧ trim p.domain = p.domain

instance (p : SsoProvider) : Decidable p.OneName := by
  unfold SsoProvider.OneName
  infer_instance

section Texts

variable (L : LowerCase)

theorem comma_mem_lower {t : Text} : ch ',' ∈ L.lower t ↔ ch ',' ∈ t := by
  constructor
  · exact L.mem_lower t _ (.inr rfl)
  · intro h
    obtain ⟨s, r, rfl⟩ := List.append_of_mem h
    rw [L.lower_append _ _ _ (.inr rfl)]
    simp

/-- Without a comma there is one name. -/
theorem names_of_no_comma {p : SsoProvider} (h : ch ',' ∉ p.domain) :
    p.names L = [L.lower (trim p.domain)] := by
  unfold SsoProvider.names
  rw [List.splitOn_eq_singleton h]
  rfl

/-- The domain of an address is never a text with a comma or with blanks around it. -/
theorem oneName_of_eq {p : SsoProvider} {e : EmailAddress}
    (h : L.lower e.domain = L.lower p.domain) : p.OneName := by
  refine ⟨?_, ?_⟩
  · rw [← comma_mem_lower L, ← h, comma_mem_lower L]
    exact fun hc => (e.domain_units _ hc).2.1 rfl
  · apply L.trimmed
    rw [← h, ← L.lower_trim, e.trim_domain]

theorem mem_names_of_oneName {p : SsoProvider} (h : p.OneName) (e : EmailAddress) :
    L.lower e.domain ∈ p.names L ↔ L.lower e.domain = L.lower p.domain := by
  rw [names_of_no_comma L h.1, h.2, List.mem_singleton]

end Texts

/-! ## One domain for all -/

/-- The three rules agree on a provider and an address. So where the organisation enforces its
sign-on, the address gets in by the callback only: it has no session of its own elsewhere unless
it owns the organisation. -/
structure SameDomain (L : LowerCase) (sqlLower : Text → Text) (p : SsoProvider) (e : EmailAddress) :
    Prop where
  provision : ssoEmailAllowed L e.text (some p) = true ↔ passesDomainCheck L e.text p = true
  gate : ∀ (db : GateTables) (org : Text), p ∈ db.providers → p.organizationId = some org →
    (orgSsoPolicy db org).enforce = true →
    (ssoEmailAllowed L e.text (some p) = true ↔ p ∈ gateProviders L sqlLower db e.text)
  closed : ∀ (db : GateTables) (org userId : Text) (path : Option Text), p ∈ db.providers →
    p.organizationId = some org → (orgSsoPolicy db org).enforce = true →
    db.email userId = some e.text → ssoEmailAllowed L e.text (some p) = true →
    ownsOrg db userId org = false → isSsoCallbackPath path = false →
    isImpersonation path = false → ssoGateForUser L sqlLower db userId path = .deny

section Same

variable (L : LowerCase) (sqlLower : Text → Text) (p : SsoProvider) (e : EmailAddress)

/-- The provider is not confirmed, or its text is one name, or the address is none of its. -/
def ReadAlike : Prop :=
  p.domainVerified ≠ some true ∨ p.OneName ∨ L.lower e.domain ∉ p.names L

theorem passesDomainCheck_iff : passesDomainCheck L e.text p = true ↔
    p.domainVerified = some true ∧ L.lower e.domain = L.lower p.domain := by
  unfold passesDomainCheck
  rw [domainOf_lower_text]
  simp

theorem mem_gateProviders_iff {db : GateTables} (hp : p ∈ db.providers)
    (hsql : sqlLower p.domain = L.lower p.domain) : p ∈ gateProviders L sqlLower db e.text ↔
      p.domainVerified = some true ∧ L.lower e.domain = L.lower p.domain := by
  unfold gateProviders
  rw [List.mem_filter, domainOf_text, hsql, Bool.and_eq_true, decide_eq_true_eq, decide_eq_true_eq]
  constructor
  · rintro ⟨-, heq, hv⟩
    exact ⟨hv, heq.symm⟩
  · rintro ⟨hv, heq⟩
    exact ⟨hp, heq.symm, hv⟩

variable {p e}

/-- Where the text reads alike, the list of names and the plain comparison say the same. -/
theorem ReadAlike.mem_names_iff (h : ReadAlike L p e) (hv : p.domainVerified = some true) :
    L.lower e.domain ∈ p.names L ↔ L.lower e.domain = L.lower p.domain := by
  rcases h with h | h | h
  · exact absurd hv h
  · exact mem_names_of_oneName L h e
  · constructor
    · exact fun hmem => absurd hmem h
    · intro heq
      exact (mem_names_of_oneName L (oneName_of_eq L heq) e).mpr heq

end Same

/-- **The rules agree on whose domain it is** exactly for a provider that is not confirmed, for
a text that is one name, and for an address that is none of the names. The database lowers the
domain text as the program does. -/
theorem same_domain_iff (L : LowerCase) (sqlLower : Text → Text) (p : SsoProvider)
    (e : EmailAddress) (hsql : sqlLower p.domain = L.lower p.domain) :
    SameDomain L sqlLower p e ↔ ReadAlike L p e := by
  constructor
  · intro h
    by_contra hnot
    unfold ReadAlike at hnot
    push Not at hnot
    obtain ⟨hv, hone, hmem⟩ := hnot
    have hallowed := (ssoEmailAllowed_iff L e p).mpr ⟨hv, hmem⟩
    have heq := ((passesDomainCheck_iff L p e).mp (h.provision.mp hallowed)).2
    exact hone (oneName_of_eq L heq)
  · intro h
    have hiff : ssoEmailAllowed L e.text (some p) = true ↔
        p.domainVerified = some true ∧ L.lower e.domain = L.lower p.domain := by
      rw [ssoEmailAllowed_iff]
      exact and_congr_right fun hv => h.mem_names_iff L hv
    refine ⟨?_, ?_, ?_⟩
    · rw [hiff, passesDomainCheck_iff]
    · intro db org hp _ _
      rw [hiff, mem_gateProviders_iff L sqlLower p e hp hsql]
    · intro db org userId path hp horg henforce hemail hallowed hown hpath himp
      have hcounts := (mem_gateProviders_iff L sqlLower p e hp hsql).mpr (hiff.mp hallowed)
      exact gate_denies L sqlLower hcounts hemail horg henforce hown hpath himp

/-! ## A list of domains -/

/-- A provider with two domains, as the comment of `ssoEmailAllowed` allows. -/
def twoDomains : SsoProvider where
  providerId := js "firma"
  organizationId := some (js "o1")
  issuer := js "https://idp.a.de"
  domain := js "a.de, b.de"
  domainVerified := some true

def xAtA : EmailAddress where
  mailbox := js "x"
  domain := js "a.de"
  mailbox_ne := by decide
  domain_ne := by decide
  domain_units := by
    have hall : ((js "a.de").all fun u =>
        u != ch '@' && u != ch ',' && 33 ≤ u.toNat && u.toNat ≤ 126) = true := by
      decide
    intro u hu
    have := List.all_eq_true.mp hall u hu
    simp only [Bool.and_eq_true, bne_iff_ne, ne_eq, decide_eq_true_eq] at this
    obtain ⟨⟨⟨hat, hcomma⟩, hlo⟩, hhi⟩ := this
    exact ⟨hat, hcomma, isTrimmed_visible hlo hhi⟩

/-- An organisation that enforces its sign-on, and an account without any membership. -/
def enforcing : GateTables where
  email u := if u = js "u1" then some xAtA.text else none
  providers := [twoDomains]
  members := []
  ssoPolicy _ := .obj [(js "enforce", .bool true)]

/-- The callback lets the address in, but it is not provisioned, and the gate is open for all
other ways to sign in. -/
theorem list_of_domains_opens_gate :
    ¬ SameDomain asciiCase lowerAscii twoDomains xAtA ∧
    ssoEmailAllowed asciiCase xAtA.text (some twoDomains) = true ∧
    passesDomainCheck asciiCase xAtA.text twoDomains = false ∧
    (orgSsoPolicy enforcing (js "o1")).enforce = true ∧
    ownsOrg enforcing (js "u1") (js "o1") = false ∧
    ssoGateForUser asciiCase lowerAscii enforcing (js "u1") (some (js "/magic-link/verify")) =
      .allow := by
  have hallowed : ssoEmailAllowed asciiCase xAtA.text (some twoDomains) = true := by decide
  have hcheck : passesDomainCheck asciiCase xAtA.text twoDomains = false := by decide
  refine ⟨fun h => ?_, hallowed, hcheck, by decide, by decide, by decide⟩
  rw [h.provision.mp hallowed] at hcheck
  cases hcheck

/-- A provider with one domain, in capitals. -/
def oneDomain : SsoProvider := { twoDomains with domain := js "A.de" }

theorem same_domain_of_one : SameDomain asciiCase lowerAscii oneDomain xAtA ↔
    ReadAlike asciiCase oneDomain xAtA :=
  same_domain_iff asciiCase lowerAscii oneDomain xAtA (by decide)

end Klick.Sso
