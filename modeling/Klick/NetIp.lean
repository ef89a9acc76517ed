-- Addresses and networks (`lib/net/ip.ts`): IPv4 in four parts without leading
-- zeros, IPv6 with `::` and an IPv4 tail. An IPv4 address mapped to IPv6 is IPv4.
import Klick.Coercion

open Js

namespace Klick.Net

inductive Family
  | v4
  | v6
deriving DecidableEq, Repr

/-- `BITS` -/
def Family.bits : Family → ℕ
  | .v4 => 32
  | .v6 => 128

structure ParsedIp where
  family : Family
  value : ℕ
deriving DecidableEq, Repr

structure IpRange where
  family : Family
  base : ℕ
  prefixLength : ℕ
  text : Text
deriving DecidableEq

/-! ## Reading an address -/

def parseV4 (s : Text) : Option ℕ :=
  let parts := s.splitOn (ch '.')
  if parts.length = 4 && parts.all fun p => (p = [ch '0'] || isPosDigits 1 3 p) && natOf p ≤ 255 then
    some (parts.foldl (fun v p => v * 256 + natOf p) 0)
  else none

/-- `text.split("::")`, with what has been read of the piece at hand. -/
def splitDouble (piece : Text) : Text → List Text
  | [] => [piece]
  | [a] => [piece ++ [a]]
  | a :: b :: t =>
    if a = ch ':' && b = ch ':' then piece :: splitDouble [] t
    else splitDouble (piece ++ [a]) (b :: t)

def groups (h : Text) : List Text := if h = [] then [] else h.splitOn (ch ':')

/-- One group of an IPv6 address. -/
def groupValue (g : Text) : Option ℕ := if g.length ≤ 4 then radixValue 16 g else none

/-- The eight groups of a text without an IPv4 tail. -/
def groupsOf (text : Text) : Option (List Text) :=
  match splitDouble [] text with
  | [h] => if (groups h).length = 8 then some (groups h) else none
  | [h, r] =>
    let given := (groups h).length + (groups r).length
    if given < 8 then some (groups h ++ List.replicate (8 - given) [ch '0'] ++ groups r) else none
  | _ => none

def parseGroups (text : Text) : Option ℕ := do
  let all ← groupsOf text
  let values ← all.mapM groupValue
  return values.foldl (fun v n => v * 65536 + n) 0

def parseV6 (s : Text) : Option ℕ :=
  if s.contains (ch '%') then none
  else
    let last := (s.reverse.takeWhile (· ≠ ch ':')).reverse
    if s.contains (ch ':') && last.contains (ch '.') then do
      let tail ← parseV4 last
      let v ← parseGroups (s.take (s.length - last.length) ++ js "0:0")
      return v / 2 ^ 32 * 2 ^ 32 + tail
    else parseGroups s

/-- `parseIp`; brackets around an address are allowed. -/
def parseIp (input : Text) : Option ParsedIp :=
  let s := trim input
  let s := if s.head? = some (ch '[') && s.getLast? = some (ch ']') then s.tail.dropLast else s
  if !s.contains (ch ':') then (parseV4 s).map (⟨.v4, ·⟩)
  else (parseV6 s).map fun v => if v / 2 ^ 32 = 0xffff then ⟨.v4, v % 2 ^ 32⟩ else ⟨.v6, v⟩

/-! ## Writing an address -/

/-- `n.toString(16)` -/
def hexText (n : ℕ) : Text :=
  if n = 0 then [ch '0'] else (Nat.digits 16 n).reverse.map hexUnit

/-- How many zeros stand from a place on. -/
def zerosAt (values : List ℕ) (i : ℕ) : ℕ := ((values.drop i).takeWhile (· = 0)).length

/-- The first of the longest runs of at least two zeros: its start and its length. -/
def bestRun (values : List ℕ) : Option (ℕ × ℕ) :=
  (List.range values.length).foldl (fun best i =>
    let run := zerosAt values i
    if 2 ≤ run && best.all (·.2 < run) then some (i, run) else best) none

def formatIp (ip : ParsedIp) : Text :=
  match ip.family with
  | .v4 => join (ch '.') ([24, 16, 8, 0].map fun s => decimal (ip.value / 2 ^ s % 256))
  | .v6 =>
    let values := (List.range 8).map fun i => ip.value / 2 ^ (112 - i * 16) % 65536
    let hex := values.map hexText
    match bestRun values with
    | none => join (ch ':') hex
    | some (start, len) =>
      join (ch ':') (hex.take start) ++ js "::" ++ join (ch ':') (hex.drop (start + len))

/-! ## Networks -/

/-- The length of a prefix after the slash; of a mapped address it counts from IPv6. -/
def parsePrefix (family : Family) (mapped : Bool) (p : Text) : Option ℕ :=
  if p ≠ [] && p.length ≤ 3 && p.all isDigit then
    let n := natOf p
    if mapped then (if 96 ≤ n && n - 96 ≤ family.bits then some (n - 96) else none)
    else if n ≤ family.bits then some n else none
  else none

def rangeOf (ip : ParsedIp) (n : ℕ) : IpRange :=
  let size := 2 ^ (ip.family.bits - n)
  let base := ip.value / size * size
  ⟨ip.family, base, n, formatIp ⟨ip.family, base⟩ ++ ch '/' :: decimal n⟩

def parseCidr (input : Text) : Option IpRange :=
  let s := trim input
  let addr := s.takeWhile (· ≠ ch '/')
  (parseIp addr).bind fun ip =>
    match (s.drop addr.length).tail? with
    | none => some (rangeOf ip ip.family.bits)
    | some p =>
      let mapped := ip.family = .v4 && addr.contains (ch ':')
      (parsePrefix ip.family mapped p).map (rangeOf ip)

/-- One contains the other. -/
def rangesOverlap (a b : IpRange) : Bool :=
  let size := 2 ^ (a.family.bits - min a.prefixLength b.prefixLength)
  a.family = b.family && a.base / size = b.base / size

def rangeWithin (inner outer : IpRange) : Bool :=
  outer.prefixLength ≤ inner.prefixLength && rangesOverlap inner outer

/-- `ipInRange`; masking an address cuts its host bits off. -/
def ipInRange (ip : ParsedIp) (range : IpRange) : Bool :=
  let size := 2 ^ (range.family.bits - range.prefixLength)
  ip.family = range.family && ip.value / size * size = range.base

/-- `ipInRanges` of a text; one that is no address is in no network. -/
def ipInRanges (ip : Text) (ranges : List IpRange) : Bool :=
  (parseIp ip).any fun ip => ranges.any (ipInRange ip)

/-- `parseRanges(list).ranges` -/
def parseRanges (list : List Text) : List IpRange :=
  list.filterMap fun raw => if trim raw = [] then none else parseCidr (trim raw)

@[simp] theorem rangesOverlap_self (r : IpRange) : rangesOverlap r r = true := by
  simp [rangesOverlap]

example : (parseCidr (js "fd10:9::1.2.3.4/64")).map (·.text) = some (js "fd10:9::/64") := by
  decide

end Klick.Net
