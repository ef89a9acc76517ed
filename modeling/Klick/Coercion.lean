-- What JavaScript makes of a value that is not of the type a program expects:
-- `String(v)`, `Number(v)`, `BigInt(v)`, truth, and the comparisons.
import Klick.Json

namespace Js

/-! ## Numbers as texts -/

/-- The fewest digits that round to a positive `q`, and where its decimal point stands. -/
def shortestFrom (q : ℚ) (fuel k : Nat) : Text × ℤ :=
  let scale := (10 : ℚ) ^ (Int.log 10 q + 1 - k)
  let c := (roundEven (q / scale)).toNat
  match fuel with
  | 0 => (decimal c, Int.log 10 q + 1)
  | fuel + 1 =>
    if fl (c * scale) = q then
      -- a carry gives one digit more, all zeros but the first
      (((decimal c).reverse.dropWhile (· = ch '0')).reverse,
        Int.log 10 q + 1 + ((decimal c).length - k))
    else shortestFrom q fuel (k + 1)

/-- `Number::toString` of a positive number. -/
def positiveText (q : ℚ) : Text :=
  let (ds, n) := shortestFrom q 16 1
  let k : ℤ := ds.length
  if k ≤ n ∧ n ≤ 21 then ds ++ List.replicate (n - k).toNat (ch '0')
  else if 0 < n ∧ n ≤ 21 then ds.take n.toNat ++ ch '.' :: ds.drop n.toNat
  else if -6 < n ∧ n ≤ 0 then js "0." ++ List.replicate (-n).toNat (ch '0') ++ ds
  else
    let mantissa := if ds.length = 1 then ds else ds.take 1 ++ ch '.' :: ds.drop 1
    mantissa ++ ch 'e' :: (if n ≤ 0 then ch '-' else ch '+') :: decimal (n - 1).natAbs

/-- `String(n)` -/
def Number.toText : Number → Text
  | .nan => js "NaN"
  | .inf false => js "Infinity"
  | .inf true => js "-Infinity"
  | .fin q =>
    if q = 0 then js "0"
    else if q < 0 then ch '-' :: positiveText (-q)
    else positiveText q

mutual
/-- `String(v)`. An object with a field `toString` has no method of that name left. -/
def Value.toText : Value → Except Exn Text
  | .undefined => .ok (js "undefined")
  | .null => .ok (js "null")
  | .bool b => .ok (if b then js "true" else js "false")
  | .num n => .ok n.toText
  | .str t => .ok t
  | .arr items => do
    let ts ← itemTexts items
    return join (ch ',') ts
  | .obj fields => if js "toString" ∈ keys fields then .error .typeError
    else .ok (js "[object Object]")
def itemTexts : List Value → Except Exn (List Text)
  | [] => .ok []
  | .undefined :: vs => do return [] :: (← itemTexts vs)
  | .null :: vs => do return [] :: (← itemTexts vs)
  | v :: vs => do
    let t ← v.toText
    let ts ← itemTexts vs
    return t :: ts
end

/-! ## Texts as numbers -/

/-- The characters that `trim` takes off. -/
def isTrimmed (u : UInt16) : Bool :=
  (9 ≤ u.toNat && u.toNat ≤ 13) || (0x2000 ≤ u.toNat && u.toNat ≤ 0x200a) ||
    u.toNat ∈ [0x20, 0xa0, 0x1680, 0x2028, 0x2029, 0x202f, 0x205f, 0x3000, 0xfeff]

/-- `t.trim()` -/
def trim (t : Text) : Text :=
  ((t.dropWhile isTrimmed).reverse.dropWhile isTrimmed).reverse

/-- The digits of a literal with a prefix such as `0x`. -/
def radixValue (radix : Nat) (ds : Text) : Option Nat :=
  if ds = [] then none
  else ds.foldl (fun acc u => do
    let n ← acc
    let d ← hexValue u
    if d < radix then some (n * radix + d) else none) (some 0)

/-- A literal with a prefix; it has no sign. -/
def prefixedValue (t : Text) : Option Nat :=
  match t with
  | z :: x :: ds =>
    if z = ch '0' then
      if x = ch 'x' || x = ch 'X' then radixValue 16 ds
      else if x = ch 'o' || x = ch 'O' then radixValue 8 ds
      else if x = ch 'b' || x = ch 'B' then radixValue 2 ds
      else none
    else none
  | _ => none

/-- The sign of a text, and what follows it. -/
def signed (t : Text) : Bool × Text :=
  match t with
  | u :: r => if u = ch '-' then (true, r) else if u = ch '+' then (false, r) else (false, t)
  | [] => (false, t)

/-- Digits with a point somewhere and an exponent, up to the end of the text. -/
def decimalValue (t : Text) : Option ℚ :=
  let (whole, r) := t.span isDigit
  let (frac, r) := match r with
    | u :: r' => if u = ch '.' then r'.span isDigit else ([], r)
    | [] => ([], r)
  if whole = [] ∧ frac = [] then none
  else
    match parseExponent r with
    | some (e, []) => some (natOf (whole ++ frac) * (10 : ℚ) ^ (e - frac.length))
    | _ => none

/-- `Number(t)` of a text. -/
def textNumber (t : Text) : Number :=
  let t := trim t
  if t = [] then .fin 0
  else
    match prefixedValue t with
    | some n => Number.ofRat n
    | none =>
      let (negative, r) := signed t
      if r = js "Infinity" then .inf negative
      else
        match decimalValue r with
        | some q => Number.ofRat (if negative then -q else q)
        | none => .nan

/-- `BigInt(t)` of a text. -/
def textBigInt (t : Text) : Except Exn ℤ :=
  let t := trim t
  if t = [] then .ok 0
  else
    match prefixedValue t with
    | some n => .ok n
    | none =>
      let (negative, r) := signed t
      if r ≠ [] ∧ r.all isDigit then .ok (if negative then -(natOf r : ℤ) else natOf r)
      else .error .syntaxError

/-! ## Values as numbers -/

/-- `Number(v)` -/
def Value.toNumber (v : Value) : Except Exn Number :=
  match v with
  | .undefined => .ok .nan
  | .null => .ok (.fin 0)
  | .bool b => .ok (.fin (if b then 1 else 0))
  | .num n => .ok n
  | _ => do return textNumber (← v.toText)

/-- `BigInt(v)` -/
def Value.toBigInt (v : Value) : Except Exn ℤ :=
  match v with
  | .undefined => .error .typeError
  | .null => .error .typeError
  | .bool b => .ok (if b then 1 else 0)
  | .num n =>
    match n.int? with
    | some z => .ok z
    | none => .error .rangeError
  | _ => do textBigInt (← v.toText)

/-- The integer of a value for which `Number.isInteger` holds. -/
def Value.int? : Value → Option ℤ
  | .num n => n.int?
  | _ => none

/-- `Boolean(v)` -/
def Value.truthy : Value → Bool
  | .undefined => false
  | .null => false
  | .bool b => b
  | .num n => n ≠ .fin 0 && n ≠ .nan
  | .str t => t ≠ []
  | _ => true

/-- `a < b` of numbers; nothing is less or greater than `NaN`. -/
def Number.lt : Number → Number → Bool
  | .fin p, .fin q => p < q
  | .fin _, .inf negative => !negative
  | .inf negative, .fin _ => negative
  | .inf a, .inf b => a && !b
  | _, _ => false

def Number.isNaN : Number → Bool
  | .nan => true
  | _ => false

/-- A value that the comparisons compare as a text. -/
def Value.comparesAsText : Value → Bool
  | .str _ => true
  | .arr _ => true
  | .obj _ => true
  | _ => false

/-- `a < b` -/
def Value.lt (a b : Value) : Except Exn Bool := do
  if a.comparesAsText && b.comparesAsText then
    let s ← a.toText
    let t ← b.toText
    return textLe s t && s ≠ t
  else
    let m ← a.toNumber
    let n ← b.toNumber
    return m.lt n

/-- `a <= b` -/
def Value.le (a b : Value) : Except Exn Bool := do
  if a.comparesAsText && b.comparesAsText then
    let s ← a.toText
    let t ← b.toText
    return textLe s t
  else
    let m ← a.toNumber
    let n ← b.toNumber
    return !m.isNaN && !n.isNaN && !n.lt m

/-- `list.includes(v)`, the list made of texts. -/
def Value.isOneOf (v : Value) (list : List Text) : Bool :=
  match v with
  | .str t => t ∈ list
  | _ => false

/-- `a === b` of values read from different texts, where objects are never the same. -/
def Value.same : Value → Value → Bool
  | .undefined, .undefined => true
  | .null, .null => true
  | .bool a, .bool b => a = b
  | .num m, .num n => m = n && !m.isNaN
  | .str s, .str t => s = t
  | _, _ => false

/-! ## Members -/

/-- `v.k`, which throws on undefined and null. -/
def Value.prop (v : Value) (k : String) : Except Exn Value :=
  match v with
  | .undefined => .error .typeError
  | .null => .error .typeError
  | _ => .ok (v.get (js k))

/-- `v.some(…)` and `v.includes(…)` need an array. -/
def Value.items : Value → Except Exn (List Value)
  | .arr items => .ok items
  | _ => .error .typeError

/-- What every object has from `Object.prototype`. -/
def objectMembers : List Text :=
  ["constructor", "__defineGetter__", "__defineSetter__", "hasOwnProperty", "__lookupGetter__",
    "__lookupSetter__", "isPrototypeOf", "propertyIsEnumerable", "toString", "valueOf", "__proto__",
    "toLocaleString"].map js

/-- A member by a computed name: one of `Object.prototype` is an object without data. -/
def Value.member (v : Value) (k : Text) : Value :=
  match v.get k with
  | .undefined => if k ∈ objectMembers then .obj [] else .undefined
  | w => w

/-! ## Values as JSON -/

mutual
/-- `JSON.stringify` -/
def stringify : Value → Text
  | .undefined => js "null"
  | .null => js "null"
  | .bool b => if b then js "true" else js "false"
  | .num n => if (n matches .fin _) then n.toText else js "null"
  | .str t => quote t
  | .arr vs => ch '[' :: (join (ch ',') (stringifyItems vs) ++ [ch ']'])
  | .obj fs => ch '{' :: (join (ch ',') (stringifyFields fs) ++ [ch '}'])
def stringifyItems : List Value → List Text
  | [] => []
  | v :: vs => stringify v :: stringifyItems vs
def stringifyFields : List (Text × Value) → List Text
  | [] => []
  | (_, .undefined) :: fs => stringifyFields fs
  | (k, v) :: fs => (quote k ++ ch ':' :: stringify v) :: stringifyFields fs
end

/-! ## Integers among the values -/

@[simp] theorem Value.int?_int (z : ℤ) : (Value.int z).int? = some z := by
  simp [Value.int?, Value.int]

theorem Value.int?_eq_some {v : Value} {z : ℤ} (h : v.int? = some z) : v = .int z := by
  cases v with
  | num n => rw [Value.int, ← Number.int?_eq_some h]
  | _ => cases h

@[simp] theorem Value.lt_int (a b : ℤ) : (Value.int a).lt (.int b) = .ok (decide (a < b)) := by
  change Except.ok (decide ((a : ℚ) < (b : ℚ))) = _
  simp

@[simp] theorem Value.toBigInt_int (z : ℤ) : (Value.int z).toBigInt = .ok z := by
  simp [Value.toBigInt, Value.int]

example : (Value.arr [.text "12", .null]).toText = .ok (js "12,") := by decide

example : positiveText (1 / 8) = js "0.125" := by decide +kernel

end Js
