-- JSON of JavaScript: `JSON.stringify` of a string, and `JSON.parse` with
-- its error paths. The parser reads back every text that the canonical
-- writer of a program prints.
import Klick.Value

namespace Js

/-- What JavaScript throws by itself. -/
inductive Exn
  | typeError
  | syntaxError
  | rangeError
deriving DecidableEq, Repr

/-! ## Writing a string -/

def isHighSurrogate (u : UInt16) : Bool := 0xd800 ≤ u.toNat && u.toNat ≤ 0xdbff

def isLowSurrogate (u : UInt16) : Bool := 0xdc00 ≤ u.toNat && u.toNat ≤ 0xdfff

/-- A digit of lower-case hexadecimal. -/
def hexUnit (d : Nat) : UInt16 := UInt16.ofNat (if d < 10 then 48 + d else 87 + d)

/-- `\uXXXX` -/
def escapeHex (u : UInt16) : Text :=
  [ch '\\', ch 'u', hexUnit (u.toNat / 4096), hexUnit (u.toNat / 256 % 16),
    hexUnit (u.toNat / 16 % 16), hexUnit (u.toNat % 16)]

/-- One code unit that is no half of a surrogate pair. -/
def quoteUnit (u : UInt16) : Text :=
  if u = ch '"' then [ch '\\', ch '"']
  else if u = ch '\\' then [ch '\\', ch '\\']
  else if u = 8 then [ch '\\', ch 'b']
  else if u = 9 then [ch '\\', ch 't']
  else if u = 10 then [ch '\\', ch 'n']
  else if u = 12 then [ch '\\', ch 'f']
  else if u = 13 then [ch '\\', ch 'r']
  else if u.toNat < 32 || isHighSurrogate u || isLowSurrogate u then escapeHex u
  else [u]

def quoteUnits : Text → Text
  | [] => []
  | [u] => quoteUnit u
  | u :: v :: r =>
    if isHighSurrogate u && isLowSurrogate v then u :: v :: quoteUnits r
    else quoteUnit u ++ quoteUnits (v :: r)

/-- `JSON.stringify` of a string. -/
def quote (t : Text) : Text := ch '"' :: (quoteUnits t ++ [ch '"'])

/-! ## Reading -/

def isSpace (u : UInt16) : Bool := u = 32 || u = 9 || u = 10 || u = 13

def skipSpace (t : Text) : Text := t.dropWhile isSpace

def hexValue (u : UInt16) : Option Nat :=
  if isDigit u then some (u.toNat - 48)
  else if 97 ≤ u.toNat && u.toNat ≤ 102 then some (u.toNat - 87)
  else if 65 ≤ u.toNat && u.toNat ≤ 70 then some (u.toNat - 55)
  else none

/-- The code unit of an escape of one letter. -/
def escapeValue (u : UInt16) : Option UInt16 :=
  if u = ch '"' then some (ch '"')
  else if u = ch '\\' then some (ch '\\')
  else if u = ch '/' then some (ch '/')
  else if u = ch 'b' then some 8
  else if u = ch 'f' then some 12
  else if u = ch 'n' then some 10
  else if u = ch 'r' then some 13
  else if u = ch 't' then some 9
  else none

def hexWord (a b c d : UInt16) : Option UInt16 := do
  let a ← hexValue a
  let b ← hexValue b
  let c ← hexValue c
  let d ← hexValue d
  return UInt16.ofNat (a * 4096 + b * 256 + c * 16 + d)

/-- The rest of a string literal after its opening quote. -/
def parseUnits : Text → Option (Text × Text)
  | [] => none
  | u :: r =>
    if u = ch '"' then some ([], r)
    else if u = ch '\\' then
      match r with
      | [] => none
      | e :: r' =>
        if e = ch 'u' then
          match r' with
          | a :: b :: c :: d :: r'' => do
            let w ← hexWord a b c d
            let (t, rest) ← parseUnits r''
            return (w :: t, rest)
          | _ => none
        else do
          let w ← escapeValue e
          let (t, rest) ← parseUnits r'
          return (w :: t, rest)
    else if u.toNat < 32 then none
    else do
      let (t, rest) ← parseUnits r
      return (u :: t, rest)

/-- The integer part: `0` or digits without a leading zero. -/
def parseWhole (t : Text) : Option (Text × Text) :=
  match t with
  | [] => none
  | u :: r =>
    if u = ch '0' then some ([u], r)
    else if isDigit u then some (t.span isDigit)
    else none

/-- The part after a decimal point, when there is one. -/
def parseFraction (t : Text) : Option (Text × Text) :=
  match t with
  | [] => some ([], [])
  | u :: r =>
    if u = ch '.' then
      match r.span isDigit with
      | ([], _) => none
      | (ds, rest) => some (ds, rest)
    else some ([], t)

/-- The exponent, when there is one. -/
def parseExponent (t : Text) : Option (ℤ × Text) :=
  match t with
  | [] => some (0, [])
  | u :: r =>
    if u = ch 'e' || u = ch 'E' then
      let (negative, r) := match r with
        | s :: r' => if s = ch '-' then (true, r') else if s = ch '+' then (false, r') else (false, r)
        | [] => (false, r)
      match r.span isDigit with
      | ([], _) => none
      | (ds, rest) => some (if negative then -(natOf ds : ℤ) else natOf ds, rest)
    else some (0, t)

def parseUnsigned (t : Text) : Option (ℚ × Text) := do
  let (whole, r) ← parseWhole t
  let (frac, r) ← parseFraction r
  let (e, r) ← parseExponent r
  return (natOf (whole ++ frac) * (10 : ℚ) ^ (e - frac.length), r)

def parseNumber (t : Text) : Option (Number × Text) :=
  match t with
  | [] => none
  | u :: r =>
    if u = ch '-' then (parseUnsigned r).map fun p => (Number.ofRat (-p.1), p.2)
    else (parseUnsigned t).map fun p => (Number.ofRat p.1, p.2)

/-- Set a field: a second value for a key takes the place of the first. -/
def setField (fs : List (Text × Value)) (k : Text) (v : Value) : List (Text × Value) :=
  if k ∈ keys fs then fs.map fun f => if f.1 = k then (k, v) else f else fs ++ [(k, v)]

/-- `t` starts with the literal `s`: what follows it. -/
def afterLiteral (s t : Text) : Option Text :=
  if s.isPrefixOf t then some (t.drop s.length) else none

def parseLiteral (t : Text) : Option (Value × Text) :=
  match afterLiteral (js "true") t, afterLiteral (js "false") t, afterLiteral (js "null") t with
  | some r, _, _ => some (.bool true, r)
  | _, some r, _ => some (.bool false, r)
  | _, _, some r => some (.null, r)
  | none, none, none => none

mutual
/-- A value, the space before it left out. Each turn takes one of the fuel. -/
def parseValue : Nat → Text → Option (Value × Text)
  | 0, _ => none
  | n + 1, t =>
    match skipSpace t with
    | [] => none
    | u :: r =>
      if u = ch '"' then (parseUnits r).map fun p => (.str p.1, p.2)
      else if u = ch '[' then
        match skipSpace r with
        | [] => none
        | v :: r' => if v = ch ']' then some (.arr [], r') else parseItems n r []
      else if u = ch '{' then
        match skipSpace r with
        | [] => none
        | v :: r' => if v = ch '}' then some (.obj [], r') else parseFields n r []
      else if u = ch '-' || isDigit u then (parseNumber (u :: r)).map fun p => (.num p.1, p.2)
      else parseLiteral (u :: r)
/-- The items of an array from the next one on. -/
def parseItems : Nat → Text → List Value → Option (Value × Text)
  | 0, _, _ => none
  | n + 1, t, acc => do
    let (v, r) ← parseValue n t
    match skipSpace r with
    | [] => none
    | u :: r' =>
      if u = ch ',' then parseItems n r' (acc ++ [v])
      else if u = ch ']' then some (.arr (acc ++ [v]), r')
      else none
/-- The fields of an object from the next one on. -/
def parseFields : Nat → Text → List (Text × Value) → Option (Value × Text)
  | 0, _, _ => none
  | n + 1, t, acc =>
    match skipSpace t with
    | [] => none
    | q :: r =>
      if q = ch '"' then do
        let (k, r) ← parseUnits r
        match skipSpace r with
        | [] => none
        | c :: r =>
          if c = ch ':' then do
            let (v, r) ← parseValue n r
            match skipSpace r with
            | [] => none
            | u :: r' =>
              if u = ch ',' then parseFields n r' (setField acc k v)
              else if u = ch '}' then some (.obj (setField acc k v), r')
              else none
          else none
      else none
end

/-- `JSON.parse` -/
def parseJson (t : Text) : Except Exn Value :=
  match parseValue (2 * t.length + 2) t with
  | some (v, r) => if skipSpace r = [] then .ok v else .error .syntaxError
  | none => .error .syntaxError

/-! ## A written string is read back -/

theorem hexValue_hexUnit : ∀ d < 16, hexValue (hexUnit d) = some d := by decide

theorem hexWord_hexUnit (u : UInt16) :
    hexWord (hexUnit (u.toNat / 4096)) (hexUnit (u.toNat / 256 % 16))
      (hexUnit (u.toNat / 16 % 16)) (hexUnit (u.toNat % 16)) = some u := by
  have hu := u.toNat_lt
  unfold hexWord
  rw [hexValue_hexUnit _ (by omega), hexValue_hexUnit _ (by omega),
    hexValue_hexUnit _ (by omega), hexValue_hexUnit _ (by omega)]
  have hsum : u.toNat / 4096 * 4096 + u.toNat / 256 % 16 * 256 + u.toNat / 16 % 16 * 16 +
      u.toNat % 16 = u.toNat := by omega
  change some (UInt16.ofNat _) = some u
  rw [hsum, UInt16.ofNat_toNat]

/-- Put a unit before the string read. -/
def consUnit (u : UInt16) (p : Text × Text) : Text × Text := (u :: p.1, p.2)

theorem parseUnits_plain {u : UInt16} (h1 : u ≠ ch '"') (h2 : u ≠ ch '\\') (h3 : ¬ u.toNat < 32)
    (r : Text) : parseUnits (u :: r) = (parseUnits r).map (consUnit u) := by
  rw [parseUnits.eq_def]
  simp only [h1, h2, h3, if_false]
  cases parseUnits r <;> rfl

theorem parseUnits_escape {e w : UInt16} (hu : e ≠ ch 'u') (hw : escapeValue e = some w)
    (r : Text) : parseUnits (ch '\\' :: e :: r) = (parseUnits r).map (consUnit w) := by
  rw [parseUnits.eq_def]
  have h1 : ch '\\' ≠ ch '"' := by decide
  simp only [h1, hu, hw, if_false, if_true]
  cases parseUnits r <;> rfl

theorem parseUnits_escapeHex (u : UInt16) (r : Text) :
    parseUnits (escapeHex u ++ r) = (parseUnits r).map (consUnit u) := by
  have h1 : ch '\\' ≠ ch '"' := by decide
  simp only [escapeHex, List.cons_append, List.nil_append]
  rw [parseUnits.eq_def]
  simp only [h1, if_false, if_true, hexWord_hexUnit]
  cases parseUnits r <;> rfl

theorem parseUnits_quoteUnit (u : UInt16) (r : Text) :
    parseUnits (quoteUnit u ++ r) = (parseUnits r).map (consUnit u) := by
  unfold quoteUnit
  split_ifs with h1 h2 h3 h4 h5 h6 h7 h8
  · rw [h1]; exact parseUnits_escape (by decide) rfl r
  · rw [h2]; exact parseUnits_escape (by decide) rfl r
  · rw [h3]; exact parseUnits_escape (by decide) rfl r
  · rw [h4]; exact parseUnits_escape (by decide) rfl r
  · rw [h5]; exact parseUnits_escape (by decide) rfl r
  · rw [h6]; exact parseUnits_escape (by decide) rfl r
  · rw [h7]; exact parseUnits_escape (by decide) rfl r
  · exact parseUnits_escapeHex u r
  · simp only [Bool.or_eq_true, decide_eq_true_eq, not_or] at h8
    exact parseUnits_plain h1 h2 h8.1.1 r

theorem plain_of_surrogate {u : UInt16} (h : isHighSurrogate u = true ∨ isLowSurrogate u = true) :
    u ≠ ch '"' ∧ u ≠ ch '\\' ∧ ¬ u.toNat < 32 := by
  simp only [isHighSurrogate, isLowSurrogate, Bool.and_eq_true, decide_eq_true_eq] at h
  have hq : (ch '"').toNat = 34 := by decide
  have hb : (ch '\\').toNat = 92 := by decide
  refine ⟨?_, ?_, by omega⟩
  · rintro rfl; omega
  · rintro rfl; omega

theorem parseUnits_end (r : Text) : parseUnits (ch '"' :: r) = some ([], r) := by
  rw [parseUnits.eq_def]
  simp

/-- `JSON.parse` reads back the string that `JSON.stringify` wrote. -/
theorem parseUnits_quoteUnits (t r : Text) :
    parseUnits (quoteUnits t ++ ch '"' :: r) = some (t, r) := by
  fun_induction quoteUnits t with
  | case1 => exact parseUnits_end r
  | case2 u => rw [parseUnits_quoteUnit, parseUnits_end]; rfl
  | case3 u v t h ih =>
    simp only [Bool.and_eq_true] at h
    obtain ⟨hu1, hu2, hu3⟩ := plain_of_surrogate (Or.inl h.1)
    obtain ⟨hv1, hv2, hv3⟩ := plain_of_surrogate (Or.inr h.2)
    rw [List.cons_append, List.cons_append, parseUnits_plain hu1 hu2 hu3,
      parseUnits_plain hv1 hv2 hv3, ih]
    rfl
  | case4 u v t h ih => rw [List.append_assoc, parseUnits_quoteUnit, ih]; rfl

/-! ## A written integer is read back -/

/-- What follows is no part of a number. -/
def NumberEnd (r : Text) : Prop :=
  ∀ u ∈ r.head?, isDigit u = false ∧ u ≠ ch '.' ∧ u ≠ ch 'e' ∧ u ≠ ch 'E'

theorem span_digits {t r : Text} (ht : ∀ u ∈ t, isDigit u = true) (hr : NumberEnd r) :
    (t ++ r).span isDigit = (t, r) := by
  rw [List.span_eq_takeWhile_dropWhile, List.takeWhile_append_of_pos ht,
    List.dropWhile_append_of_pos ht]
  cases r with
  | nil => simp
  | cons u r => simp [(hr u rfl).1]

theorem parseFraction_end {r : Text} (hr : NumberEnd r) : parseFraction r = some ([], r) := by
  cases r with
  | nil => rfl
  | cons u r => simp [parseFraction, (hr u rfl).2.1]

theorem parseExponent_end {r : Text} (hr : NumberEnd r) : parseExponent r = some (0, r) := by
  cases r with
  | nil => rfl
  | cons u r => simp [parseExponent, (hr u rfl).2.2.1, (hr u rfl).2.2.2]

theorem parseWhole_decimal (n : Nat) {r : Text} (hr : NumberEnd r) :
    parseWhole (decimal n ++ r) = some (decimal n, r) := by
  rcases Nat.eq_zero_or_pos n with rfl | hn
  · rfl
  obtain ⟨⟨u, t, ht, hu⟩, hall, -, -⟩ := isPosDigits_iff.mp
    (@isPosDigits_decimal _ (decimal n).length n hn le_rfl le_rfl)
  have hspan := span_digits hall hr
  rw [ht, List.cons_append] at hspan ⊢
  have hd : isDigit u = true := hall u (by simp [ht])
  simp only [parseWhole, hu, hd, if_false, if_true, hspan]

theorem parseUnsigned_decimal (n : Nat) {r : Text} (hr : NumberEnd r) :
    parseUnsigned (decimal n ++ r) = some ((n : ℚ), r) := by
  simp [parseUnsigned, parseWhole_decimal n hr, parseFraction_end hr, parseExponent_end hr,
    natOf_decimal]

theorem parseNumber_intText {z : ℤ} (hz : z.natAbs ≤ maxSafe) {r : Text} (hr : NumberEnd r) :
    parseNumber (intText z ++ r) = some (.fin z, r) := by
  unfold intText
  split
  · rename_i hneg
    have hcast : -((z.natAbs : ℕ) : ℚ) = ((z : ℤ) : ℚ) := by
      rw [← Int.cast_natCast, show (z.natAbs : ℤ) = -z by omega, Int.cast_neg, neg_neg]
    simp only [List.cons_append, parseNumber, if_true, parseUnsigned_decimal _ hr,
      Option.map_some, hcast, Number.ofRat_safe hz]
  · rename_i hpos
    have hcast : ((z.natAbs : ℕ) : ℚ) = ((z : ℤ) : ℚ) := by
      rw [← Int.cast_natCast, show (z.natAbs : ℤ) = z by omega]
    have hd := decimal_digits z.natAbs
    cases ht : decimal z.natAbs with
    | nil => exact absurd ht (decimal_ne_nil _)
    | cons u t =>
      have hu : u ≠ ch '-' := by
        rintro rfl
        exact absurd (hd _ (by rw [ht]; exact List.mem_cons_self)) (by decide)
      have hp := parseUnsigned_decimal z.natAbs hr
      rw [ht] at hp
      simp only [List.cons_append] at hp ⊢
      simp only [parseNumber, hu, if_false, hp, Option.map_some, hcast, Number.ofRat_safe hz]

/-! ## Setting a field -/

theorem keys_setField (fs : List (Text × Value)) (k : Text) (v : Value) :
    keys (setField fs k v) = if k ∈ keys fs then keys fs else keys fs ++ [k] := by
  unfold setField
  split
  · simp only [keys, List.map_map]
    apply List.map_congr_left
    intro f _
    simp only [Function.comp]
    split
    · rename_i h
      exact h.symm
    · rfl
  · simp [keys]

theorem keys_setField_nodup {fs : List (Text × Value)} (h : (keys fs).Nodup) (k : Text)
    (v : Value) : (keys (setField fs k v)).Nodup := by
  rw [keys_setField]
  split
  · exact h
  · rename_i hk
    refine List.nodup_append.mpr ⟨h, by simp, ?_⟩
    rintro a ha b hb rfl
    exact hk (List.mem_singleton.mp hb ▸ ha)

theorem lookup_setField_self (fs : List (Text × Value)) (k : Text) (v : Value) :
    lookup k (setField fs k v) = some v := by
  unfold setField
  split
  · rename_i h
    induction fs with
    | nil => simp [keys] at h
    | cons f fs ih =>
      by_cases hf : f.1 = k
      · simp [lookup, hf]
      · have hk : k ∈ keys fs := by simpa [keys, Ne.symm hf] using h
        simp only [List.map_cons, hf, if_false, lookup]
        exact ih hk
  · rename_i h
    induction fs with
    | nil => simp [lookup]
    | cons f fs ih =>
      simp only [keys, List.map_cons, List.mem_cons, not_or] at h
      simp only [List.cons_append, lookup, Ne.symm h.1, if_false]
      exact ih h.2

theorem distinctFields_iff {fs : List (Text × Value)} :
    distinctFields fs ↔ ∀ f ∈ fs, f.2.Distinct := by
  induction fs with
  | nil => simp [distinctFields]
  | cons f fs ih => simp [distinctFields, ih]

theorem distinctItems_iff {vs : List Value} : distinctItems vs ↔ ∀ v ∈ vs, v.Distinct := by
  induction vs with
  | nil => simp [distinctItems]
  | cons v vs ih => simp [distinctItems, ih]

theorem distinct_setField {fs : List (Text × Value)} (h : (Value.obj fs).Distinct) (k : Text)
    {v : Value} (hv : v.Distinct) : (Value.obj (setField fs k v)).Distinct := by
  refine ⟨keys_setField_nodup h.1 k v, distinctFields_iff.2 ?_⟩
  intro f hf
  have hfs := distinctFields_iff.1 h.2
  unfold setField at hf
  split at hf
  · obtain ⟨g, hg, rfl⟩ := List.mem_map.mp hf
    split
    · exact hv
    · exact hfs g hg
  · rcases List.mem_append.mp hf with hf | hf
    · exact hfs f hf
    · rw [List.mem_singleton.mp hf]
      exact hv

/-! ## What is read has distinct keys -/

theorem distinct_of_parseLiteral {t : Text} {v : Value} {r : Text}
    (h : parseLiteral t = some (v, r)) : v.Distinct := by
  unfold parseLiteral at h
  split at h <;> cases h <;> trivial

theorem distinct_of_parse (n : Nat) :
    (∀ t v r, parseValue n t = some (v, r) → v.Distinct) ∧
    (∀ t acc v r, parseItems n t acc = some (v, r) → distinctItems acc → v.Distinct) ∧
    (∀ t acc v r, parseFields n t acc = some (v, r) → (Value.obj acc).Distinct →
      v.Distinct) := by
  induction n with
  | zero => simp [parseValue, parseItems, parseFields]
  | succ n ih =>
    obtain ⟨ihv, ihi, ihf⟩ := ih
    refine ⟨?_, ?_, ?_⟩
    · intro t v r h
      unfold parseValue at h
      split at h
      · cases h
      · split_ifs at h
        · obtain ⟨p, -, hp⟩ := Option.map_eq_some_iff.mp h
          cases hp
          trivial
        · split at h
          · cases h
          · split_ifs at h
            · cases h
              trivial
            · exact ihi _ _ _ _ h trivial
        · split at h
          · cases h
          · split_ifs at h
            · cases h
              exact ⟨List.nodup_nil, trivial⟩
            · exact ihf _ _ _ _ h ⟨List.nodup_nil, trivial⟩
        · obtain ⟨p, -, hp⟩ := Option.map_eq_some_iff.mp h
          cases hp
          trivial
        · exact distinct_of_parseLiteral h
    · intro t acc v r h hacc
      unfold parseItems at h
      obtain ⟨⟨w, r'⟩, hw, h⟩ := Option.bind_eq_some_iff.mp h
      simp only at h
      have hd := ihv _ _ _ hw
      have hacc' : distinctItems (acc ++ [w]) := by
        rw [distinctItems_iff] at hacc ⊢
        intro x hx
        rcases List.mem_append.mp hx with hx | hx
        · exact hacc x hx
        · rw [List.mem_singleton.mp hx]
          exact hd
      split at h
      · cases h
      · split_ifs at h
        · exact ihi _ _ _ _ h hacc'
        · cases h
          exact hacc'
    · intro t acc v r h hacc
      unfold parseFields at h
      split at h
      · cases h
      · split_ifs at h
        obtain ⟨⟨k, r1⟩, -, h⟩ := Option.bind_eq_some_iff.mp h
        simp only at h
        split at h
        · cases h
        · split_ifs at h
          obtain ⟨⟨w, r2⟩, hw, h⟩ := Option.bind_eq_some_iff.mp h
          simp only at h
          have hset := distinct_setField hacc k (ihv _ _ _ hw)
          split at h
          · cases h
          · split_ifs at h
            · exact ihf _ _ _ _ h hset
            · cases h
              exact hset

/-- An object that `JSON.parse` gives has distinct keys. -/
theorem distinct_of_parseJson {t : Text} {v : Value} (h : parseJson t = .ok v) : v.Distinct := by
  unfold parseJson at h
  split at h
  · rename_i w r hw
    split_ifs at h
    cases h
    exact (distinct_of_parse _).1 _ _ _ hw
  · cases h

end Js
