-- Addresses that a request may go to (`lib/security/quick-check/ssrf.ts`): how the platform
-- reads an address, how the program expands an IPv6 text on its own, and what is blocked.
-- A text that the platform reads is expanded to the same eight groups.
import Klick.LowerCase
import Klick.NetIp

open Js Klick.Net

namespace Klick.QuickCheck

/-! ## What the platform reads -/

/-- A group of an IPv6 address: one to four hexadecimal digits. -/
def isGroup (g : Text) : Bool := g ≠ [] && g.length ≤ 4 && g.all fun u => (hexValue u).isSome

def hexNumber (g : Text) : ℕ := g.foldl (fun n u => n * 16 + (hexValue u).getD 0) 0

/-- The groups of a part of an address; the last of all may be an IPv4 address. -/
def readGroups (last : Bool) : List Text → Option (List ℕ)
  | [] => some []
  | [p] =>
    if last && p.contains (ch '.') then (parseV4 p).map fun v => [v / 65536, v % 65536]
    else if isGroup p then some [hexNumber p] else none
  | p :: q :: ps =>
    if isGroup p then (readGroups last (q :: ps)).map (hexNumber p :: ·) else none

/-- `[0-9a-zA-Z-.:]` -/
def isZoneSign (u : UInt16) : Bool :=
  isDigit u || isHexLower (lowerUnit u) || (103 ≤ (lowerUnit u).toNat && (lowerUnit u).toNat ≤ 122) ||
    u = ch '-' || u = ch '.' || u = ch ':'

/-- The zone after the address: none, or a percent sign and at least one sign. -/
def isZone (t : Text) : Bool :=
  match t with
  | [] => true
  | _ :: zone => zone ≠ [] && zone.all isZoneSign

/-- `isIPv6` and the groups that the platform reads: eight, or fewer with one `::` for the rest. -/
def readV6 (ip : Text) : Option (List ℕ) :=
  if isZone (ip.dropWhile (· ≠ ch '%')) then
    match splitDouble [] (ip.takeWhile (· ≠ ch '%')) with
    | [h] => (readGroups true (h.splitOn (ch ':'))).filter (·.length = 8)
    | [h, r] =>
      (readGroups false (groups h)).bind fun hs =>
        (readGroups true (groups r)).bind fun rs =>
          if hs.length + rs.length ≤ 7 then
            some (hs ++ List.replicate (8 - hs.length - rs.length) 0 ++ rs)
          else none
    | _ => none
  else none

/-- `isIP` -/
def isIP (ip : Text) : ℕ :=
  if (parseV4 ip).isSome then 4 else if (readV6 ip).isSome then 6 else 0

/-- An address that a connection can go to. -/
inductive Address
  | v4 (n : ℕ)
  | v6 (gs : List ℕ)
deriving DecidableEq

/-- The address that a text names. -/
def addressOf (ip : Text) : Option Address :=
  match parseV4 ip with
  | some n => some (.v4 n)
  | none => (readV6 ip).map .v6

/-! ## What is blocked -/

structure Subnet where
  base : ℕ
  prefixLength : ℕ

def Subnet.Holds (s : Subnet) (bits n : ℕ) : Prop :=
  n / 2 ^ (bits - s.prefixLength) = s.base / 2 ^ (bits - s.prefixLength)

instance (s : Subnet) (bits n : ℕ) : Decidable (s.Holds bits n) := inferInstanceAs (Decidable (_ = _))

/-- The 128 bits of eight groups. -/
def number (gs : List ℕ) : ℕ := gs.foldl (fun v g => v * 65536 + g) 0

def quad (a b c d : ℕ) : ℕ := ((a * 256 + b) * 256 + c) * 256 + d

def blockedV4 : List Subnet :=
  [⟨quad 0 0 0 0, 8⟩, ⟨quad 10 0 0 0, 8⟩, ⟨quad 100 64 0 0, 10⟩, ⟨quad 127 0 0 0, 8⟩,
    ⟨quad 169 254 0 0, 16⟩, ⟨quad 172 16 0 0, 12⟩, ⟨quad 192 0 0 0, 24⟩, ⟨quad 192 0 2 0, 24⟩,
    ⟨quad 192 88 99 0, 24⟩, ⟨quad 192 168 0 0, 16⟩, ⟨quad 198 18 0 0, 15⟩,
    ⟨quad 198 51 100 0, 24⟩, ⟨quad 203 0 113 0, 24⟩, ⟨quad 224 0 0 0, 4⟩, ⟨quad 240 0 0 0, 4⟩]

def blockedV6 : List Subnet :=
  [⟨0, 128⟩, ⟨1, 128⟩, ⟨number [0xfc00, 0, 0, 0, 0, 0, 0, 0], 7⟩,
    ⟨number [0xfe80, 0, 0, 0, 0, 0, 0, 0], 10⟩, ⟨number [0xfec0, 0, 0, 0, 0, 0, 0, 0], 10⟩,
    ⟨number [0xff00, 0, 0, 0, 0, 0, 0, 0], 8⟩, ⟨number [0x2001, 0xdb8, 0, 0, 0, 0, 0, 0], 32⟩,
    ⟨number [0x2001, 0, 0, 0, 0, 0, 0, 0], 32⟩, ⟨number [0x64, 0xff9b, 1, 0, 0, 0, 0, 0], 48⟩,
    ⟨number [0x100, 0, 0, 0, 0, 0, 0, 0], 64⟩, ⟨number [0xfd00, 0xec2, 0, 0, 0, 0, 0, 0], 32⟩]

/-- `blocked.check(ip, "ipv4")` -/
def checkV4 (n : ℕ) : Bool := blockedV4.any fun s => s.Holds 32 n

/-- `blocked.check(ip, "ipv6")`; a mapped address is checked as the IPv4 address too. -/
def checkV6 (gs : List ℕ) : Bool :=
  (blockedV6.any fun s => s.Holds 128 (number gs)) ||
    (number gs / 2 ^ 32 = 0xffff && checkV4 (number gs % 2 ^ 32))

/-- An IPv6 address holds an IPv4 address: mapped, compatible, of NAT64 or of 6to4. -/
def Embeds (gs : List ℕ) (v : ℕ) : Prop :=
  ((number gs / 2 ^ 32 = 0xffff ∨ number gs / 2 ^ 32 = 0 ∨
      number gs / 2 ^ 32 = number [0x64, 0xff9b, 0, 0, 0, 0]) ∧ v = number gs % 2 ^ 32) ∨
    (number gs / 2 ^ 112 = 0x2002 ∧ v = number gs / 2 ^ 80 % 2 ^ 32)

/-- **An address of the public network**: in no blocked range, and no blocked one in it. -/
def Address.Public : Address → Prop
  | .v4 n => ∀ s ∈ blockedV4, ¬ s.Holds 32 n
  | .v6 gs => (∀ s ∈ blockedV6, ¬ s.Holds 128 (number gs)) ∧
      ∀ v, Embeds gs v → ∀ s ∈ blockedV4, ¬ s.Holds 32 v

/-! ## The expander of the program -/

/-- What `Array` throws for a negative length. -/
structure RangeError where
deriving DecidableEq, Repr

/-- `\d+\.\d+\.\d+\.\d+` as a whole -/
def isDotted (t : Text) : Bool :=
  let parts := t.splitOn (ch '.')
  parts.length = 4 && parts.all fun p => p ≠ [] && p.all isDigit

/-- `/(\d+\.\d+\.\d+\.\d+)$/.exec(s)`: the longest tail that matches. -/
def dottedTail (s : Text) : Option Text := s.tails.find? isDotted

/-- `s.replace(pattern, by)`, for texts: the first place. -/
def replaceFirst (pattern by_ : Text) : Text → Text
  | [] => if pattern = [] then by_ else []
  | c :: t =>
    if pattern.isPrefixOf (c :: t) then by_ ++ (c :: t).drop pattern.length
    else c :: replaceFirst pattern by_ t

/-- The text with an IPv4 address at its end as two groups; `null` for parts above 255. -/
def expandTail (s : Text) : Option Text :=
  match dottedTail s with
  | none => some s
  | some v4 =>
    let o := (v4.splitOn (ch '.')).map natOf
    if o.any (255 < ·) then none
    else
      let pair := fun a b => hexText (o.getD a 0 * 256 + o.getD b 0)
      some (replaceFirst v4 (pair 0 1 ++ ch ':' :: pair 2 3) s)

/-- `Number.parseInt(g, 16)`, `none` for `NaN` -/
def parseInt16 (g : Text) : Option ℤ :=
  let t := g.dropWhile isTrimmed
  let negative := t.head? = some (ch '-')
  let t := if negative || t.head? = some (ch '+') then t.tail else t
  let t := if lowerAscii (t.take 2) = js "0x" then t.drop 2 else t
  let digits := t.takeWhile fun u => (hexValue u).isSome
  if digits = [] then none
  else some (if negative then -(hexNumber digits : ℤ) else hexNumber digits)

/-- The groups as numbers, if there are eight of 16 bits. -/
def groupValues (all : List Text) : Option (List ℕ) :=
  let values := all.map fun g => parseInt16 (if g = [] then [ch '0'] else g)
  if values.length = 8 ∧ ∀ v ∈ values, ∃ n ∈ v, 0 ≤ n ∧ n ≤ 0xffff then
    some (values.map fun v => (v.getD 0).toNat)
  else none

/-- `expandV6`; a text of ASCII. -/
def expandV6 (ip : Text) : Except RangeError (Option (List ℕ)) :=
  match expandTail ((lowerAscii ip).takeWhile (· ≠ ch '%')) with
  | none => .ok none
  | some s =>
    let parts := splitDouble [] s
    let h := groups (parts.getD 0 [])
    let t := (parts[1]?.map groups).getD []
    let double := 2 ≤ parts.length
    if double ∧ 8 < h.length + t.length then .error ⟨⟩
    else
      let fill := if double then 8 - h.length - t.length else 0
      .ok (groupValues (h ++ List.replicate fill [ch '0'] ++ t))

/-- `v4From` -/
def v4From (hi lo : ℕ) : Text :=
  join (ch '.') ([hi / 256, hi % 256, lo / 256, lo % 256].map decimal)

/-- `embeddedV4` -/
def embeddedV4 (ip : Text) : Except RangeError (Option Text) :=
  (expandV6 ip).map fun g => match g with
    | some [g0, g1, g2, g3, g4, g5, g6, g7] =>
      if (g0 = 0 ∧ g1 = 0 ∧ g2 = 0 ∧ g3 = 0 ∧ g4 = 0) ∧ (g5 = 0xffff ∨ g5 = 0) then
        some (v4From g6 g7)
      else if g0 = 0x64 ∧ g1 = 0xff9b ∧ g2 = 0 ∧ g3 = 0 ∧ g4 = 0 ∧ g5 = 0 then some (v4From g6 g7)
      else if g0 = 0x2002 then some (v4From g1 g2)
      else none
    | _ => none

/-- `isBlockedAddress` -/
def isBlockedAddress (ip : Text) : Except RangeError Bool :=
  match parseV4 ip with
  | some n => .ok (checkV4 n)
  | none =>
    match readV6 ip with
    | none => .ok true
    | some gs => (embeddedV4 ip).map fun v4 =>
      (v4.any fun t => match parseV4 t with
        | some n => checkV4 n
        | none => true) || checkV6 gs

end Klick.QuickCheck
