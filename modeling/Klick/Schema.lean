-- Schemas of JSON values: which values a schema accepts, and what it hands
-- on. Fields that an object's schema does not name are dropped.
import Klick.Value

open Js

/-- What a value has to be. -/
inductive Schema
  /-- A text of at most so many code units. -/
  | text (max : ℕ)
  /-- A text of a format. -/
  | format (check : Text → Bool)
  /-- One of these texts. -/
  | oneOf (values : List Text)
  /-- A safe integer from a bound on. -/
  | int (lo : ℤ)
  | bool
  | nullable (s : Schema)
  /-- At most so many items. -/
  | array (max : ℕ) (s : Schema)
  | object (fields : List (Text × Schema))
  /-- An object whose keys are among these. -/
  | partialRecord (keys : List Text) (s : Schema)

namespace Schema

/-! ## Formats -/

def isHexDigit (u : UInt16) : Bool :=
  isHexLower u || (65 ≤ u.toNat && u.toNat ≤ 70)

/-- A UUID: versions 1 to 8 of the common variant, or all bits alike. -/
def isUuid (t : Text) : Bool :=
  let parts := t.splitOn (ch '-')
  parts.map List.length = [8, 4, 4, 4, 12] && parts.all (·.all isHexDigit) &&
    ((49 ≤ (t.getD 14 0).toNat && (t.getD 14 0).toNat ≤ 56 &&
        [ch '8', ch '9', ch 'a', ch 'b', ch 'A', ch 'B'].contains (t.getD 19 0)) ||
      parts.all (·.all (· = ch '0')) || parts.all (·.all (· = ch 'f')))

/-- Two digits at the head of a text. -/
def twoDigits : Text → Option (ℕ × Text)
  | a :: b :: r => if isDigit a && isDigit b then some (unitDigit a * 10 + unitDigit b, r) else none
  | _ => none

def isLeapYear (y : ℕ) : Bool := y % 4 = 0 && (y % 100 ≠ 0 || y % 400 = 0)

def daysOf (y m : ℕ) : ℕ :=
  if m = 2 then (if isLeapYear y then 29 else 28)
  else if [4, 6, 9, 11].contains m then 30
  else 31

/-- What follows a mark. -/
def after (mark : UInt16) : Text → Option Text
  | u :: r => if u = mark then some r else none
  | [] => none

/-- The days from 1970-01-01 on. -/
def dayNumber (y m d : ℕ) : ℤ :=
  let y' : ℤ := if m ≤ 2 then y - 1 else y
  let m' : ℤ := if m ≤ 2 then m + 9 else m - 3
  365 * y' + y' / 4 - y' / 100 + y' / 400 + (153 * m' + 2) / 5 + d - 719469

/-- The day of `YYYY-MM-DD` at the head of a text. -/
def calendarDate (t : Text) : Option (ℤ × Text) := do
  let (c, t) ← twoDigits t
  let (y, t) ← twoDigits t
  let (m, t) ← twoDigits (← after (ch '-') t)
  let (d, t) ← twoDigits (← after (ch '-') t)
  if 1 ≤ m && m ≤ 12 && 1 ≤ d && d ≤ daysOf (c * 100 + y) m then
    some (dayNumber (c * 100 + y) m d, t)
  else none

/-- The minutes of `HH:MM` at the head of a text. -/
def clock (t : Text) : Option (ℕ × Text) := do
  let (h, t) ← twoDigits t
  let (m, t) ← twoDigits (← after (ch ':') t)
  if h < 24 && m < 60 then some (h * 60 + m, t) else none

/-- The milliseconds of a fraction; further digits are dropped. -/
def fraction (digits : Text) : ℕ :=
  ((digits ++ [ch '0', ch '0']).take 3).foldl (fun n u => n * 10 + unitDigit u) 0

/-- The milliseconds of seconds with their fraction, where there are any. -/
def seconds (t : Text) : Option (ℕ × Text) :=
  match t with
  | 58 :: t => do
    let (s, t) ← twoDigits t
    if s < 60 then
      match t with
      | 46 :: d :: r =>
        if isDigit d then some (s * 1000 + fraction (d :: r.takeWhile isDigit), r.dropWhile isDigit)
        else none
      | _ => some (s * 1000, t)
    else none
  | _ => some (0, t)

/-- The minutes that `Z` or an offset is ahead. -/
def zone (t : Text) : Option ℤ :=
  match t with
  | [90] => some 0
  | 43 :: t => (clock t).bind fun c => if c.2 = [] then some c.1 else none
  | 45 :: t => (clock t).bind fun c => if c.2 = [] then some (-c.1) else none
  | _ => none

def isIsoDate (t : Text) : Bool := (calendarDate t).any fun d => d.2 = []

/-- The milliseconds since 1970 of a date, `T`, a time of day and its zone. -/
def instant (t : Text) : Option ℤ := do
  let (day, t) ← calendarDate t
  let (minutes, t) ← clock (← after (ch 'T') t)
  let (ms, t) ← seconds t
  let ahead ← zone t
  return (day * 1440 + minutes - ahead) * 60000 + ms

def isIsoDatetime (t : Text) : Bool := (instant t).isSome

/-! ## Reading -/

mutual
/-- What a schema makes of a value, none where it refuses. -/
def parse : Schema → Value → Option Value
  | .text max, .str t => if t.length ≤ max then some (.str t) else none
  | .format check, .str t => if check t then some (.str t) else none
  | .oneOf values, .str t => if t ∈ values then some (.str t) else none
  | .int lo, .num n => if n.safe?.any (lo ≤ ·) then some (.num n) else none
  | .bool, .bool b => some (.bool b)
  | .nullable _, .null => some .null
  | .nullable s, v => parse s v
  | .array max s, .arr vs => if vs.length ≤ max then (vs.mapM (parse s)).map .arr else none
  | .object fields, .obj fs => (parseFields fields fs).map .obj
  | .partialRecord keys s, .obj fs =>
    (fs.mapM fun f => if f.1 ∈ keys then (parse s f.2).map (f.1, ·) else none).map .obj
  | _, _ => none
def parseFields : List (Text × Schema) → List (Text × Value) → Option (List (Text × Value))
  | [], _ => some []
  | (k, s) :: fields, fs => do
    let v ← parse s ((lookup k fs).getD .undefined)
    let vs ← parseFields fields fs
    return (k, v) :: vs
end

def accepts (s : Schema) (v : Value) : Bool := (s.parse v).isSome

end Schema
