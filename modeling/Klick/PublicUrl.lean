-- Addresses of the public network (`lib/net/public-url.ts`): https on a host that
-- names no own machine and no own network. The host is tested by its text, as the
-- platform writes it.
import Klick.IpLaws
import Klick.SafeFetch

open Js Klick.Net Klick.QuickCheck

namespace Klick.PublicUrl

/-! ## What the platform reads -/

/-- The last label of a name; an empty one after a dot at the end does not count. -/
def lastLabel (name : Text) : Text :=
  match (name.splitOn (ch '.')).reverse with
  | [] => []
  | [l] => l
  | l :: m :: _ => if l = [] then m else l

/-- The name of a host as the platform writes it: small ASCII letters, no colons or brackets, and
no number at the end, since that would be an IPv4 address. -/
structure Domain where
  name : Text
  nonempty : name ≠ []
  ascii : ∀ u ∈ name, u.toNat < 128 ∧ ¬ (65 ≤ u.toNat ∧ u.toNat ≤ 90)
  signs : ∀ u ∈ name, u ≠ ch ':' ∧ u ≠ ch '[' ∧ u ≠ ch ']'
  noNumber : lastLabel name = [] ∨ ∃ u ∈ lastLabel name, isDigit u = false

/-- The host of an https URL. -/
inductive Host
  | domain (d : Domain)
  | ipv4 (v : Fin (2 ^ 32))
  | ipv6 (v : Fin (2 ^ 128))

/-- `URL.hostname`: an IPv4 address in four parts, an IPv6 address short and in brackets. -/
def Host.text : Host → Text
  | .domain d => d.name
  | .ipv4 v => formatIp ⟨.v4, v.val⟩
  | .ipv6 v => ch '[' :: (formatIp ⟨.v6, v.val⟩ ++ [ch ']'])

/-- A `URL`, as far as the program reads it; one of https has a host. -/
inductive Url
  | https (username password : Text) (host : Host)
  | other (protocol : Text) (h : protocol ≠ js "https:") (username password hostname : Text)

namespace Url

def protocol : Url → Text
  | .https .. => js "https:"
  | .other p .. => p

def username : Url → Text
  | .https u _ _ => u
  | .other _ _ u _ _ => u

def password : Url → Text
  | .https _ p _ => p
  | .other _ _ _ p _ => p

def hostname : Url → Text
  | .https _ _ h => h.text
  | .other _ _ _ _ h => h

end Url

/-! ## The test of the program -/

/-- Names of the own machine and network, and names of one label. -/
def isLocalName (host : Text) : Bool :=
  host = js "localhost" || (js ".localhost").isSuffixOf host || (js ".local").isSuffixOf host ||
    (js ".internal").isSuffixOf host || (!host.contains (ch '.') && !host.contains (ch ':'))

/-- Four numbers, of which the first two decide. -/
def isInternalQuad (host : Text) : Bool :=
  isDotted host &&
    let a := natOf ((host.splitOn (ch '.')).getD 0 [])
    let b := natOf ((host.splitOn (ch '.')).getD 1 [])
    a = 0 || a = 10 || a = 127 || (a = 100 && 64 ≤ b && b ≤ 127) || (a = 169 && b = 254) ||
      (a = 172 && 16 ≤ b && b ≤ 31) || (a = 192 && b = 168) || 224 ≤ a

/-- `/^fe[89ab]/` -/
def startsLinkLocal : Text → Bool
  | f :: e :: x :: _ => f = ch 'f' && e = ch 'e' && (x ∈ [ch '8', ch '9', ch 'a', ch 'b'] : Bool)
  | _ => false

/-- `/^f[cd]/` -/
def startsUniqueLocal : Text → Bool
  | f :: x :: _ => f = ch 'f' && (x = ch 'c' || x = ch 'd')
  | _ => false

/-- Loopback, link-local, unique-local and mapped addresses. -/
def isInternalV6 (host : Text) : Bool :=
  host.contains (ch ':') && (host = js "::1" || host = js "::" || startsLinkLocal host ||
    startsUniqueLocal host || (js "::ffff:").isPrefixOf host)

/-- The host is refused. -/
def isInternalHost (hostname : Text) : Bool :=
  let host := stripBrackets (lowerAscii hostname)
  isLocalName host || isInternalQuad host || isInternalV6 host

section Urls

-- `new URL(value)`; `none` where it throws
variable (newUrl : Text → Option Url)

/-- `isPublicHttpsUrl` -/
def isPublicHttpsUrl (value : Text) : Bool :=
  match newUrl value with
  | none => false
  | some u => u.protocol = js "https:" && !isInternalHost u.hostname

end Urls

/-! ## Internal targets -/

/-- A name without the dot at its end. -/
def undotted (name : Text) : Text :=
  if name.getLast? = some (ch '.') then name.dropLast else name

/-- A name that stands for the own machine or network by convention, or a single label. -/
def InternalName (name : Text) : Prop :=
  name = js "localhost" ∨ js ".localhost" <:+ name ∨ js ".local" <:+ name ∨
    js ".internal" <:+ name ∨ ch '.' ∉ name

/-- Loopback, private, link-local, multicast and unspecified IPv4 addresses. -/
def internalV4 : List Subnet :=
  [⟨quad 127 0 0 0, 8⟩, ⟨quad 10 0 0 0, 8⟩, ⟨quad 172 16 0 0, 12⟩, ⟨quad 192 168 0 0, 16⟩,
    ⟨quad 169 254 0 0, 16⟩, ⟨quad 224 0 0 0, 4⟩, ⟨quad 0 0 0 0, 32⟩]

def InternalV4 (v : ℕ) : Prop := ∃ s ∈ internalV4, s.Holds 32 v

/-- Unspecified, loopback, link-local, unique-local and multicast IPv6 addresses. -/
def internalV6 : List Subnet :=
  [⟨0, 128⟩, ⟨1, 128⟩, ⟨number [0xfe80, 0, 0, 0, 0, 0, 0, 0], 10⟩,
    ⟨number [0xfc00, 0, 0, 0, 0, 0, 0, 0], 7⟩, ⟨number [0xff00, 0, 0, 0, 0, 0, 0, 0], 8⟩]

/-- In an internal range, or with an internal IPv4 address in it: mapped, compatible, of NAT64 or
of 6to4. -/
def InternalV6 (v : ℕ) : Prop :=
  (∃ s ∈ internalV6, s.Holds 128 v) ∨ ∃ w, Embeds (groupsOfValue v) w ∧ InternalV4 w

def Host.Internal : Host → Prop
  | .domain d => InternalName (undotted d.name)
  | .ipv4 v => InternalV4 v.val
  | .ipv6 v => InternalV6 v.val

/-- https, without credentials, to a host that is not internal. -/
def Url.External : Url → Prop
  | .https username password host => username = [] ∧ password = [] ∧ ¬ host.Internal
  | .other .. => False

/-! ## What the test overlooks -/

/-- An internal name with a dot at its end; a multicast IPv6 address; one that is compatible, of
NAT64 or of 6to4 around an internal IPv4 address. -/
def Host.Overlooked : Host → Prop
  | .domain d => d.name.getLast? = some (ch '.') ∧ InternalName d.name.dropLast
  | .ipv4 _ => False
  | .ipv6 v => v.val / 2 ^ 120 = 0xff ∨
      (v.val / 2 ^ 32 = 0 ∧ v.val ≠ 0 ∧ InternalV4 v.val) ∨
      (v.val / 2 ^ 32 = number [0x64, 0xff9b, 0, 0, 0, 0] ∧ InternalV4 (v.val % 2 ^ 32)) ∨
      (v.val / 2 ^ 112 = 0x2002 ∧ InternalV4 (v.val / 2 ^ 80 % 2 ^ 32))

/-- A URL of https with such a host, or with credentials for a host that is not refused. -/
def Url.Overlooked : Url → Prop
  | .https username password host => host.Overlooked ∨
      ((username ≠ [] ∨ password ≠ []) ∧ isInternalHost host.text = false)
  | .other .. => False

/-! ## Ranges by their leading bits -/

theorem internalV4_iff {v : ℕ} : InternalV4 v ↔ v / 2 ^ 24 = 127 ∨ v / 2 ^ 24 = 10 ∨
    v / 2 ^ 20 = 0xac1 ∨ v / 2 ^ 16 = 0xc0a8 ∨ v / 2 ^ 16 = 0xa9fe ∨ v / 2 ^ 28 = 14 ∨ v = 0 := by
  simp [InternalV4, internalV4, Subnet.Holds, quad]

theorem internalV6_iff {v : ℕ} : (∃ s ∈ internalV6, s.Holds 128 v) ↔
    v = 0 ∨ v = 1 ∨ v / 2 ^ 118 = 0x3fa ∨ v / 2 ^ 121 = 126 ∨ v / 2 ^ 120 = 0xff := by
  simp [internalV6, Subnet.Holds, number]

theorem bestRun_compatible {g h : ℕ} (hg : g ≠ 0) :
    bestRun [0, 0, 0, 0, 0, 0, g, h] = some (0, 6) := by
  by_cases hh : h = 0 <;> simp [bestRun, zerosAt, List.range_succ, hg, hh]

theorem bestRun_mapped (g h : ℕ) : bestRun [0, 0, 0, 0, 0, 0xffff, g, h] = some (0, 5) := by
  by_cases hg : g = 0 <;> by_cases hh : h = 0 <;> simp [bestRun, zerosAt, List.range_succ, hg, hh]

theorem digits_four {g : ℕ} (h : 4096 ≤ g) (h' : g < 65536) :
    Nat.digits 16 g = [g % 16, g / 16 % 16, g / 256 % 16, g / 4096] := by
  rw [Nat.digits_def' (by norm_num) (by omega), Nat.digits_def' (by norm_num) (by omega),
    Nat.digits_def' (by norm_num) (by omega), Nat.digits_of_lt 16 _ (by omega) (by omega)]
  simp [Nat.div_div_eq_div_mul]

theorem hexText_four {g : ℕ} (h : 4096 ≤ g) (h' : g < 65536) : hexText g =
    [hexUnit (g / 4096), hexUnit (g / 256 % 16), hexUnit (g / 16 % 16), hexUnit (g % 16)] := by
  unfold hexText
  rw [if_neg (by omega), digits_four h h']
  rfl
/-! ## Names -/

theorem lowerAscii_domain (d : Domain) : lowerAscii d.name = d.name := by
  have hsame : ∀ u ∈ d.name, lowerUnit u = u := by
    intro u hu
    rcases lowerUnit_cases u with ⟨-, hlo, hhi⟩ | ⟨heq, -⟩
    · exact absurd ⟨hlo, hhi⟩ (d.ascii u hu).2
    · exact heq
  exact (List.map_congr_left hsame).trans (List.map_id _)

theorem stripBrackets_plain {t : Text} (h : ∀ u ∈ t, u ≠ ch '[' ∧ u ≠ ch ']') :
    stripBrackets t = t := by
  have hhead : t.head? ≠ some (ch '[') := fun hh => (h _ (List.mem_of_head? hh)).1 rfl
  have hlast : t.getLast? ≠ some (ch ']') := fun hl => (h _ (List.mem_of_getLast? hl)).2 rfl
  unfold stripBrackets
  rw [if_neg hhead]
  exact if_neg hlast

theorem stripBrackets_brackets (t : Text) :
    stripBrackets (ch '[' :: (t ++ [ch ']'])) = t := by
  unfold stripBrackets
  simp

/-- A name that ends in a number of digits is none. -/
theorem isDotted_domain (d : Domain) : isDotted d.name = false := by
  by_contra hne
  rw [Bool.not_eq_false, isDotted, Bool.and_eq_true, decide_eq_true_eq, List.all_eq_true] at hne
  obtain ⟨hlen, hall⟩ := hne
  have hlast := d.noNumber
  unfold lastLabel at hlast
  generalize d.name.splitOn (ch '.') = parts at hlen hall hlast
  obtain ⟨a, b, c, e, rfl⟩ := List.length_eq_four.mp hlen
  have he := hall e (by simp)
  simp only [Bool.and_eq_true, decide_eq_true_eq, List.all_eq_true] at he
  simp only [List.reverse_cons, List.reverse_nil, List.nil_append, List.cons_append,
    if_neg he.1] at hlast
  rcases hlast with hnil | ⟨u, hu, hdigit⟩
  · exact he.1 hnil
  · rw [he.2 u hu] at hdigit
    cases hdigit

theorem isLocalName_iff {name : Text} (h : ch ':' ∉ name) :
    isLocalName name = true ↔ InternalName name := by
  simp [isLocalName, InternalName, h, or_assoc]

theorem isInternalHost_domain (d : Domain) :
    isInternalHost d.name = true ↔ InternalName d.name := by
  have hcolon : ch ':' ∉ d.name := fun h => (d.signs _ h).1 rfl
  have hv6 : isInternalV6 d.name = false := by simp [isInternalV6, hcolon]
  have hquad : isInternalQuad d.name = false := by simp [isInternalQuad, isDotted_domain d]
  unfold isInternalHost
  dsimp only
  rw [lowerAscii_domain, stripBrackets_plain fun u hu => (d.signs u hu).2, hv6, hquad,
    Bool.or_false, Bool.or_false, isLocalName_iff hcolon]

/-- With a dot at its end no name is refused. -/
theorem not_internalName_dot (n : Text) : ¬ InternalName (n ++ [ch '.']) := by
  have hlast : ∀ s : Text, s <:+ n ++ [ch '.'] → s ≠ [] → s.getLast? = some (ch '.') := by
    rintro s ⟨t, ht⟩ hne
    have hsame := congrArg List.getLast? ht
    rw [List.getLast?_append, List.getLast?_concat] at hsame
    obtain ⟨r, u, rfl⟩ := (List.eq_nil_or_concat' s).resolve_left hne
    simpa using hsame
  rintro (h | h | h | h | h)
  · have hdot := hlast (js "localhost") (by rw [h]) (by decide)
    revert hdot
    decide
  · have hdot := hlast _ h (by decide)
    revert hdot
    decide
  · have hdot := hlast _ h (by decide)
    revert hdot
    decide
  · have hdot := hlast _ h (by decide)
    revert hdot
    decide
  · exact h (by simp)

theorem overlooked_domain (d : Domain) :
    ((Host.domain d).Internal ∧ isInternalHost d.name = false) ↔ (Host.domain d).Overlooked := by
  rw [← Bool.not_eq_true, isInternalHost_domain]
  unfold Host.Internal Host.Overlooked undotted
  dsimp only
  by_cases hdot : d.name.getLast? = some (ch '.')
  · rw [if_pos hdot]
    obtain ⟨n, hn⟩ := List.getLast?_eq_some_iff.mp hdot
    have hplain := not_internalName_dot n
    rw [← hn] at hplain
    exact ⟨fun h => ⟨hdot, h.1⟩, fun h => ⟨h.2, hplain⟩⟩
  · rw [if_neg hdot]
    exact ⟨fun h => absurd h.1 h.2, fun h => absurd h.1 hdot⟩

/-! ## IPv4 addresses -/

theorem not_mem_formatV4 {v : ℕ} (hv : v < 2 ^ 32) {u : UInt16} (hdot : u ≠ ch '.')
    (hdigit : isDigit u = false) : u ∉ formatIp ⟨.v4, v⟩ :=
  not_mem_dotted (parseV4_formatIp hv) hdot hdigit

/-- The leading bits of an address, by its parts. -/
theorem quad_leading {a b c d : ℕ} (hb : b < 256) (hc : c < 256) (hd : d < 256) :
    quad a b c d / 2 ^ 24 = a ∧ quad a b c d / 2 ^ 20 = 16 * a + b / 16 ∧
      quad a b c d / 2 ^ 16 = 256 * a + b ∧ quad a b c d / 2 ^ 28 = a / 16 := by
  have hsplit : quad a b c d / 2 ^ 16 = 256 * a + b := by
    unfold quad
    omega
  have hdiv (n : ℕ) : quad a b c d / (2 ^ 16 * n) = (256 * a + b) / n := by
    rw [← Nat.div_div_eq_div_mul, hsplit]
  have h20 := hdiv 16
  have h24 := hdiv 256
  have h28 := hdiv 4096
  norm_num at hsplit h20 h24 h28 ⊢
  omega

/-- The parts of an internal address are those that are refused. -/
theorem refused_of_internalV4 {a b c d : ℕ} (hb : b < 256) (hc : c < 256) (hd : d < 256)
    (h : InternalV4 (quad a b c d)) :
    (a = 0 || a = 10 || a = 127 || (a = 100 && 64 ≤ b && b ≤ 127) || (a = 169 && b = 254) ||
      (a = 172 && 16 ≤ b && b ≤ 31) || (a = 192 && b = 168) || 224 ≤ a : Bool) = true := by
  simp only [Bool.or_eq_true, Bool.and_eq_true, decide_eq_true_eq]
  obtain ⟨h24, h20, h16, h28⟩ := quad_leading (a := a) hb hc hd
  rw [internalV4_iff, h24, h20, h16, h28] at h
  rcases h with h | h | h | h | h | h | h
  · omega
  · omega
  · omega
  · omega
  · omega
  · omega
  · unfold quad at h
    omega

/-- An internal IPv4 address is refused. -/
theorem isInternalHost_ipv4 {v : ℕ} (hv : v < 2 ^ 32) (h : InternalV4 v) :
    isInternalHost (formatIp ⟨.v4, v⟩) = true := by
  have hread := parseV4_formatIp hv
  obtain ⟨a, b, c, d, hsplit, hparts, hquad⟩ := parts_of_parseV4 hread
  have hdotted : isDotted (formatIp ⟨.v4, v⟩) = true := by
    unfold isDotted
    rw [hsplit]
    have hall : ∀ p ∈ [a, b, c, d], (decide (p ≠ []) && p.all isDigit) = true := by
      intro p hp
      rw [Bool.and_eq_true, decide_eq_true_eq, List.all_eq_true]
      exact hparts.digits p hp
    exact List.all_eq_true.mpr hall
  have hlower : lowerAscii (formatIp ⟨.v4, v⟩) = formatIp ⟨.v4, v⟩ := lowerAscii_v4 hread
  have hstrip : stripBrackets (formatIp ⟨.v4, v⟩) = formatIp ⟨.v4, v⟩ := by
    apply stripBrackets_plain
    intro u hu
    constructor
    · rintro rfl
      exact not_mem_formatV4 hv (by decide) (by decide) hu
    · rintro rfl
      exact not_mem_formatV4 hv (by decide) (by decide) hu
  have hsmall := hparts.small
  simp only [List.forall_mem_cons] at hsmall
  obtain ⟨ha, hb, hc, hd, -⟩ := hsmall
  have hrefused : isInternalQuad (formatIp ⟨.v4, v⟩) = true := by
    unfold isInternalQuad
    rw [hdotted, hsplit, Bool.true_and]
    simp only [List.getD_cons_zero, List.getD_cons_succ]
    rw [hquad] at h
    exact refused_of_internalV4 (Nat.lt_succ_of_le hb) (Nat.lt_succ_of_le hc)
      (Nat.lt_succ_of_le hd) h
  unfold isInternalHost
  dsimp only
  rw [hlower, hstrip, hrefused, Bool.or_true, Bool.true_or]

/-! ## IPv6 addresses -/

theorem lowerUnit_hexUnit {d : ℕ} (h : d < 16) : lowerUnit (hexUnit d) = hexUnit d := by
  have hall : ∀ d < 16, lowerUnit (hexUnit d) = hexUnit d := by decide
  exact hall d h

theorem mem_hexText {n : ℕ} {u : UInt16} (h : u ∈ hexText n) : ∃ d < 16, u = hexUnit d := by
  unfold hexText at h
  split_ifs at h
  · exact ⟨0, by norm_num, by rw [List.mem_singleton.mp h]; decide⟩
  · obtain ⟨d, hd, rfl⟩ := List.mem_map.mp h
    exact ⟨d, digits_hex (List.mem_reverse.mp hd), rfl⟩

/-- The signs of an IPv6 address as it is written: colons and small hexadecimal digits. -/
theorem mem_formatV6 {v : ℕ} {u : UInt16} (h : u ∈ formatIp ⟨.v6, v⟩) :
    u = ch ':' ∨ ∃ d < 16, u = hexUnit d := by
  have hgroup : ∀ gs : List ℕ, u ∈ join (ch ':') (gs.map hexText) →
      u = ch ':' ∨ ∃ d < 16, u = hexUnit d := by
    intro gs hu
    refine (mem_join hu).imp_right ?_
    rintro ⟨g, hg, hug⟩
    obtain ⟨n, -, rfl⟩ := List.mem_map.mp hg
    exact mem_hexText hug
  unfold formatIp at h
  dsimp only at h
  split at h
  · exact hgroup _ h
  · rw [← List.map_take, ← List.map_drop, List.mem_append, List.mem_append] at h
    rcases h with (h | h) | h
    · exact hgroup _ h
    · exact .inl (mem_colons h)
    · exact hgroup _ h

theorem not_mem_formatV6 {v : ℕ} {u : UInt16} (hcolon : u ≠ ch ':')
    (hdigit : ∀ d < 16, u ≠ hexUnit d) : u ∉ formatIp ⟨.v6, v⟩ := by
  intro hu
  rcases mem_formatV6 hu with h | ⟨d, hd, h⟩
  · exact hcolon h
  · exact hdigit d hd h

/-- Of an IPv6 address only its own rule decides. -/
theorem isInternalHost_ipv6 {v : ℕ} (hv : v < 2 ^ 128) :
    isInternalHost (ch '[' :: (formatIp ⟨.v6, v⟩ ++ [ch ']'])) = isInternalV6 (formatIp ⟨.v6, v⟩) := by
  have hlower : lowerAscii (ch '[' :: (formatIp ⟨.v6, v⟩ ++ [ch ']'])) =
      ch '[' :: (formatIp ⟨.v6, v⟩ ++ [ch ']']) := by
    have hsame : ∀ u ∈ ch '[' :: (formatIp ⟨.v6, v⟩ ++ [ch ']']), lowerUnit u = u := by
      intro u hu
      rw [List.mem_cons, List.mem_append, List.mem_singleton] at hu
      rcases hu with rfl | hu | rfl
      · decide
      · rcases mem_formatV6 hu with rfl | ⟨d, hd, rfl⟩
        · decide
        · exact lowerUnit_hexUnit hd
      · decide
    exact (List.map_congr_left hsame).trans (List.map_id _)
  have hcolon : ch ':' ∈ formatIp ⟨.v6, v⟩ := (isV6_formatIp hv).colon_mem
  have hdot : ch '.' ∉ formatIp ⟨.v6, v⟩ := not_mem_formatV6 (by decide) (by decide)
  have hname : isLocalName (formatIp ⟨.v6, v⟩) = false := by
    have hsuffix : ∀ s : Text, ch '.' ∈ s → s.isSuffixOf (formatIp ⟨.v6, v⟩) = false := by
      intro s hs
      by_contra hne
      rw [Bool.not_eq_false, List.isSuffixOf_iff_suffix] at hne
      exact hdot (hne.subset hs)
    have hlocal : formatIp ⟨.v6, v⟩ ≠ js "localhost" := by
      intro h
      rw [h] at hcolon
      revert hcolon
      decide
    unfold isLocalName
    rw [hsuffix _ (by decide), hsuffix _ (by decide), hsuffix _ (by decide)]
    simp [hlocal, hcolon]
  have hquad : isInternalQuad (formatIp ⟨.v6, v⟩) = false := by
    simp [isInternalQuad, isDotted_false hcolon]
  unfold isInternalHost
  dsimp only
  rw [hlower, stripBrackets_brackets, hname, hquad, Bool.false_or, Bool.false_or]

/-- An address whose first group is not zero begins with that group. -/
theorem formatV6_head {v : ℕ} (hne : v / 2 ^ 112 % 65536 ≠ 0) :
    ∃ r, formatIp ⟨.v6, v⟩ = hexText (v / 2 ^ 112 % 65536) ++ ch ':' :: r := by
  obtain ⟨g, gs, hgroups⟩ : ∃ g gs, groupsOfValue v = v / 2 ^ 112 % 65536 :: g :: gs := ⟨_, _, rfl⟩
  have hcolons : js "::" = [ch ':', ch ':'] := by decide
  rw [formatIp_v6, hgroups]
  generalize v / 2 ^ 112 % 65536 = g₀ at hne
  cases hrun : bestRun (g₀ :: g :: gs) with
  | none =>
    dsimp only
    rw [List.map_cons, List.map_cons, join_cons_cons]
    exact ⟨_, rfl⟩
  | some p =>
    obtain ⟨start, len⟩ := p
    obtain ⟨hlong, hlen⟩ := bestRun_spec hrun
    dsimp only
    match start with
    | 0 => simp [zerosAt, hne] at hlen; omega
    | 1 => simp [hcolons]
    | n + 2 =>
      simp only [List.map_cons, List.take_succ_cons, join_cons_cons, List.append_assoc,
        List.cons_append]
      exact ⟨_, rfl⟩

/-- The first group of an address with four digits, written out. -/
theorem formatV6_digits {v g : ℕ} (hg : v / 2 ^ 112 % 65536 = g) (h : 4096 ≤ g) :
    ∃ x r, formatIp ⟨.v6, v⟩ = hexUnit (g / 4096) :: hexUnit (g / 256 % 16) ::
      hexUnit (g / 16 % 16) :: x :: r := by
  have hlt : g < 65536 := hg ▸ Nat.mod_lt _ (by norm_num)
  obtain ⟨r, hr⟩ := formatV6_head (v := v) (by omega)
  rw [hg, hexText_four h hlt] at hr
  exact ⟨_, _, hr⟩

theorem refused_linkLocal {v : ℕ} (h : v / 2 ^ 118 = 0x3fa) :
    startsLinkLocal (formatIp ⟨.v6, v⟩) = true := by
  obtain ⟨x, r, hr⟩ := formatV6_digits (v := v) rfl (by omega)
  have h1 : v / 2 ^ 112 % 65536 / 4096 = 15 := by omega
  have h2 : v / 2 ^ 112 % 65536 / 256 % 16 = 14 := by omega
  have h3 : v / 2 ^ 112 % 65536 / 16 % 16 = 8 ∨ v / 2 ^ 112 % 65536 / 16 % 16 = 9 ∨
      v / 2 ^ 112 % 65536 / 16 % 16 = 10 ∨ v / 2 ^ 112 % 65536 / 16 % 16 = 11 := by omega
  rw [hr, h1, h2]
  rcases h3 with h3 | h3 | h3 | h3
  · rw [h3]
    rfl
  · rw [h3]
    rfl
  · rw [h3]
    rfl
  · rw [h3]
    rfl

theorem refused_uniqueLocal {v : ℕ} (h : v / 2 ^ 121 = 126) :
    startsUniqueLocal (formatIp ⟨.v6, v⟩) = true := by
  obtain ⟨x, r, hr⟩ := formatV6_digits (v := v) rfl (by omega)
  have h1 : v / 2 ^ 112 % 65536 / 4096 = 15 := by omega
  have h2 : v / 2 ^ 112 % 65536 / 256 % 16 = 12 ∨ v / 2 ^ 112 % 65536 / 256 % 16 = 13 := by omega
  rw [hr, h1]
  rcases h2 with h2 | h2
  · rw [h2]
    rfl
  · rw [h2]
    rfl

/-- The groups of a number of so many bits. -/
theorem groupsOfValue_eq (v : ℕ) : groupsOfValue v =
    [v / 2 ^ 112 % 65536, v / 2 ^ 96 % 65536, v / 2 ^ 80 % 65536, v / 2 ^ 64 % 65536,
      v / 2 ^ 48 % 65536, v / 2 ^ 32 % 65536, v / 2 ^ 16 % 65536, v / 2 ^ 0 % 65536] := rfl

theorem formatV6_mapped {v : ℕ} (h : v / 2 ^ 32 = 0xffff) :
    ∃ r, formatIp ⟨.v6, v⟩ = js "::ffff:" ++ r := by
  have hgroups : groupsOfValue v =
      [0, 0, 0, 0, 0, 0xffff, v / 2 ^ 16 % 65536, v / 2 ^ 0 % 65536] := by
    rw [groupsOfValue_eq]
    simp only [List.cons.injEq, and_true]
    omega
  have hcolons : js "::" = [ch ':', ch ':'] := by decide
  have hmapped : js "::ffff:" = ch ':' :: ch ':' :: (hexText 0xffff ++ [ch ':']) := by decide
  rw [formatIp_v6, hgroups, bestRun_mapped, hcolons, hmapped]
  simp

/-- An IPv4 address in the last bits: two groups after `::`. -/
theorem formatV6_compatible {v : ℕ} (h : v / 2 ^ 32 = 0) (hne : v / 2 ^ 16 ≠ 0) :
    formatIp ⟨.v6, v⟩ =
      ch ':' :: ch ':' :: (hexText (v / 2 ^ 16) ++ ch ':' :: hexText (v % 65536)) := by
  have hgroups : groupsOfValue v = [0, 0, 0, 0, 0, 0, v / 2 ^ 16, v % 65536] := by
    rw [groupsOfValue_eq]
    simp only [List.cons.injEq, and_true]
    omega
  have hcolons : js "::" = [ch ':', ch ':'] := by decide
  rw [formatIp_v6, hgroups, bestRun_compatible hne, hcolons]
  simp

/-! ## What is refused and what is not -/

/-- Loopback, unspecified, link-local, unique-local and mapped addresses are refused. -/
theorem refused_ipv6 {v : ℕ} (hv : v < 2 ^ 128) (h : v = 0 ∨ v = 1 ∨ v / 2 ^ 118 = 0x3fa ∨
    v / 2 ^ 121 = 126 ∨ v / 2 ^ 32 = 0xffff) : isInternalV6 (formatIp ⟨.v6, v⟩) = true := by
  have hcolon : (formatIp ⟨.v6, v⟩).contains (ch ':') = true := by
    simpa using (isV6_formatIp hv).colon_mem
  unfold isInternalV6
  rw [hcolon, Bool.true_and]
  simp only [Bool.or_eq_true]
  rcases h with rfl | rfl | h | h | h
  · exact .inl (.inl (.inl (.inr (by decide))))
  · exact .inl (.inl (.inl (.inl (by decide))))
  · exact .inl (.inl (.inr (refused_linkLocal h)))
  · exact .inl (.inr (refused_uniqueLocal h))
  · obtain ⟨r, hr⟩ := formatV6_mapped h
    rw [hr, List.isPrefixOf_iff_prefix]
    exact .inr (List.prefix_append _ _)

theorem not_linkLocal {c : UInt16} (hf : c ≠ ch 'f') (r : Text) :
    startsLinkLocal (c :: r) = false := by
  unfold startsLinkLocal
  split
  · rename_i heq
    cases heq
    simp [hf]
  · rfl

theorem not_uniqueLocal {c : UInt16} (hf : c ≠ ch 'f') (r : Text) :
    startsUniqueLocal (c :: r) = false := by
  unfold startsUniqueLocal
  split
  · rename_i heq
    cases heq
    simp [hf]
  · rfl

/-- A text whose first sign is neither a colon nor an `f` is not refused. -/
theorem passes_of_head {c : UInt16} {r : Text} (hcolon : c ≠ ch ':') (hf : c ≠ ch 'f') :
    isInternalV6 (c :: r) = false := by
  have hone : js "::1" = [ch ':', ch ':', ch '1'] := by decide
  have hzero : js "::" = [ch ':', ch ':'] := by decide
  have hmapped : js "::ffff:" = ch ':' :: js ":ffff:" := by decide
  unfold isInternalV6
  rw [not_linkLocal hf, not_uniqueLocal hf, hone, hzero, hmapped]
  simp [hcolon, Ne.symm hcolon, List.isPrefixOf_cons_cons]

theorem passes_of_ff (r : Text) : isInternalV6 (ch 'f' :: ch 'f' :: r) = false := by
  have hone : js "::1" = [ch ':', ch ':', ch '1'] := by decide
  have hzero : js "::" = [ch ':', ch ':'] := by decide
  have hmapped : js "::ffff:" = ch ':' :: js ":ffff:" := by decide
  have hcolon : ch 'f' ≠ ch ':' := by decide
  have hlink : startsLinkLocal (ch 'f' :: ch 'f' :: r) = false := by
    have he : ch 'f' ≠ ch 'e' := by decide
    cases r with
    | nil => rfl
    | cons x r => simp [startsLinkLocal, he]
  have hunique : startsUniqueLocal (ch 'f' :: ch 'f' :: r) = false := rfl
  unfold isInternalV6
  rw [hlink, hunique, hone, hzero, hmapped]
  simp [hcolon, Ne.symm hcolon, List.isPrefixOf_cons_cons]

theorem passes_of_compatible {g h : ℕ} (hg : g ≠ 0xffff) :
    isInternalV6 (ch ':' :: ch ':' :: (hexText g ++ ch ':' :: hexText h)) = false := by
  have hone : js "::1" = [ch ':', ch ':', ch '1'] := by decide
  have hzero : js "::" = [ch ':', ch ':'] := by decide
  have hmapped : js "::ffff:" = ch ':' :: ch ':' :: (hexText 0xffff ++ [ch ':']) := by decide
  have hplain : ∀ n, ch ':' ∉ hexText n := by
    intro n hu
    obtain ⟨d, hd, heq⟩ := mem_hexText hu
    have hall : ∀ d < 16, ch ':' ≠ hexUnit d := by decide
    exact hall d hd heq
  have hlong : hexText g ++ ch ':' :: hexText h ≠ [ch '1'] := by
    intro heq
    have hmem : ch ':' ∈ [ch '1'] := by simp [← heq]
    revert hmem
    decide
  have hprefix : ¬ js "::ffff:" <+: ch ':' :: ch ':' :: (hexText g ++ ch ':' :: hexText h) := by
    rintro ⟨r, hr⟩
    rw [hmapped] at hr
    simp only [List.cons_append, List.append_assoc, List.nil_append, List.cons.injEq, true_and] at hr
    have hsame := (append_cons_cancel (hplain _) (hplain _) hr).1
    have hnumber := congrArg hexNumber hsame
    rw [hexNumber_hexText, hexNumber_hexText] at hnumber
    exact hg hnumber.symm
  have hmapped : (js "::ffff:").isPrefixOf
      (ch ':' :: ch ':' :: (hexText g ++ ch ':' :: hexText h)) = false := by
    rw [← Bool.not_eq_true, List.isPrefixOf_iff_prefix]
    exact hprefix
  have hf : ch ':' ≠ ch 'f' := by decide
  unfold isInternalV6
  rw [not_linkLocal hf, not_uniqueLocal hf, hmapped, hone, hzero]
  simp [hlong]

/-- What is overlooked passes. -/
theorem passes_ipv6 {v : ℕ} (h : v / 2 ^ 120 = 0xff ∨
    (v / 2 ^ 32 = 0 ∧ v ≠ 0 ∧ InternalV4 v) ∨ v / 2 ^ 32 = number [0x64, 0xff9b, 0, 0, 0, 0] ∨
    v / 2 ^ 112 = 0x2002) : isInternalV6 (formatIp ⟨.v6, v⟩) = false := by
  rcases h with h | ⟨h32, hne, hv4⟩ | h | h
  · obtain ⟨x, r, hr⟩ := formatV6_digits (v := v) rfl (by omega)
    have h1 : v / 2 ^ 112 % 65536 / 4096 = 15 := by omega
    have h2 : v / 2 ^ 112 % 65536 / 256 % 16 = 15 := by omega
    have hf : hexUnit 15 = ch 'f' := by decide
    rw [hr, h1, h2, hf]
    exact passes_of_ff _
  · rw [internalV4_iff] at hv4
    rw [formatV6_compatible h32 (by omega)]
    exact passes_of_compatible (by omega)
  · have hfirst : v / 2 ^ 112 % 65536 = 0x64 := by
      simp only [number, List.foldl_cons, List.foldl_nil] at h
      omega
    obtain ⟨r, hr⟩ := formatV6_head (v := v) (by omega)
    have htext : hexText 0x64 = [ch '6', ch '4'] := by decide
    rw [hr, hfirst, htext]
    exact passes_of_head (by decide) (by decide)
  · obtain ⟨x, r, hr⟩ := formatV6_digits (v := v) (g := 0x2002) (by omega) (by norm_num)
    rw [hr]
    exact passes_of_head (by decide) (by decide)

theorem overlooked_ipv6 (v : Fin (2 ^ 128)) :
    ((Host.ipv6 v).Internal ∧ isInternalHost (Host.ipv6 v).text = false) ↔
      (Host.ipv6 v).Overlooked := by
  obtain ⟨v, hv⟩ := v
  have htext : isInternalHost (Host.ipv6 ⟨v, hv⟩).text = isInternalV6 (formatIp ⟨.v6, v⟩) :=
    isInternalHost_ipv6 hv
  rw [htext]
  unfold Host.Internal Host.Overlooked InternalV6 Embeds
  dsimp only
  rw [internalV6_iff, number_groupsOfValue hv]
  constructor
  · rintro ⟨hinternal, hpass⟩
    have hnot : ¬ (v = 0 ∨ v = 1 ∨ v / 2 ^ 118 = 0x3fa ∨ v / 2 ^ 121 = 126 ∨
        v / 2 ^ 32 = 0xffff) := by
      intro h
      rw [refused_ipv6 hv h] at hpass
      cases hpass
    simp only [not_or] at hnot
    obtain ⟨h0, h1, hlink, hunique, hmapped⟩ := hnot
    rcases hinternal with (h | h | h | h | h) | ⟨w, (⟨h | h | h, rfl⟩ | ⟨h, rfl⟩), hw⟩
    · exact absurd h h0
    · exact absurd h h1
    · exact absurd h hlink
    · exact absurd h hunique
    · exact .inl h
    · exact absurd h hmapped
    · rw [show v % 2 ^ 32 = v by omega] at hw
      exact .inr (.inl ⟨h, h0, hw⟩)
    · exact .inr (.inr (.inl ⟨h, hw⟩))
    · exact .inr (.inr (.inr ⟨h, hw⟩))
  · intro h
    constructor
    · rcases h with h | ⟨h, -, hw⟩ | ⟨h, hw⟩ | ⟨h, hw⟩
      · exact .inl (.inr (.inr (.inr (.inr h))))
      · exact .inr ⟨v % 2 ^ 32, .inl ⟨.inr (.inl h), rfl⟩, by rwa [show v % 2 ^ 32 = v by omega]⟩
      · exact .inr ⟨_, .inl ⟨.inr (.inr h), rfl⟩, hw⟩
      · exact .inr ⟨_, .inr ⟨h, rfl⟩, hw⟩
    · apply passes_ipv6
      rcases h with h | h | ⟨h, -⟩ | ⟨h, -⟩
      · exact .inl h
      · exact .inr (.inl h)
      · exact .inr (.inr (.inl h))
      · exact .inr (.inr (.inr h))

/-- **An internal host passes exactly when it is overlooked.** -/
theorem overlooked_iff (host : Host) :
    (host.Internal ∧ isInternalHost host.text = false) ↔ host.Overlooked := by
  cases host with
  | domain d => exact overlooked_domain d
  | ipv4 v =>
    constructor
    · rintro ⟨h, hpass⟩
      have hrefused := isInternalHost_ipv4 v.isLt h
      unfold Host.text at hpass
      rw [hrefused] at hpass
      cases hpass
    · exact False.elim
  | ipv6 v => exact overlooked_ipv6 v

/-- `localhost.` -/
def dottedLocalhost : Domain where
  name := js "localhost."
  nonempty := by decide
  ascii := by
    have h : (js "localhost.").all
        (fun u => u.toNat < 128 && !(65 ≤ u.toNat && u.toNat ≤ 90)) = true := by decide
    intro u hu
    have hu := List.all_eq_true.mp h u hu
    simp only [Bool.and_eq_true, decide_eq_true_eq, Bool.not_eq_true', decide_eq_false_iff_not,
      Bool.and_eq_false_iff] at hu
    omega
  signs := by
    have h : (js "localhost.").all
        (fun u => u ≠ ch ':' && u ≠ ch '[' && u ≠ ch ']') = true := by decide
    intro u hu
    simpa [and_assoc] using List.all_eq_true.mp h u hu
  noNumber := by decide

/-- A parser that reads one URL. -/
def oneUrl (value : Text) : Option Url :=
  if value = js "https://localhost./" then some (.https [] [] (.domain dottedLocalhost)) else none

end Klick.PublicUrl
