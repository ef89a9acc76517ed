-- The canonical JSON of the signer's journal (`canonicalJson` of
-- `signer/journal.ts`): sorted keys, no spaces, safe integers only. What it
-- writes, `JSON.parse` reads back up to undefined fields and key order.
import Klick.Utf8

open Js

namespace Klick

/-- `"key":value` -/
def pairText (p : Text × Text) : Text := quote p.1 ++ ch ':' :: p.2

mutual
def canonicalJson : Value → Except Exn Text
  | .null => .ok (js "null")
  | .bool b => .ok (if b then js "true" else js "false")
  | .str t => .ok (quote t)
  | .num n =>
    match n.safe? with
    | some z => .ok (intText z)
    | none => .error .typeError
  | .arr items => do
    let ts ← canonicalItems items
    return ch '[' :: (join (ch ',') ts ++ [ch ']'])
  | .obj fields => do
    let ps ← canonicalPairs fields
    return ch '{' :: (join (ch ',') ((sortByKey ps).map pairText) ++ [ch '}'])
  | .undefined => .error .typeError
def canonicalItems : List Value → Except Exn (List Text)
  | [] => .ok []
  | v :: vs => do
    let t ← canonicalJson v
    let ts ← canonicalItems vs
    return t :: ts
def canonicalPairs : List (Text × Value) → Except Exn (List (Text × Text))
  | [] => .ok []
  | (_, .undefined) :: fs => canonicalPairs fs
  | (k, v) :: fs => do
    let t ← canonicalJson v
    let ps ← canonicalPairs fs
    return (k, t) :: ps
end

/-! ## What the canonical text of a value is -/

/-- A text without control characters and lone surrogates. -/
structure Clean (t : Text) : Prop where
  printable : ∀ u ∈ t, 32 ≤ u.toNat
  paired : Paired t

/-- The text does not begin with a space or a closing bracket. -/
def StartsValue (t : Text) : Prop :=
  ∃ u r, t = u :: r ∧ isSpace u = false ∧ u ≠ ch ']' ∧ u ≠ ch '}'

/-- `JSON.parse` reads the value at the front of the text, given enough fuel. -/
def ParsesTo (v : Value) (t : Text) : Prop :=
  ∀ n r, 2 * t.length ≤ n → NumberEnd r → parseValue n (t ++ r) = some (v, r)

/-- The text is the canonical text of the value, and reads back as it. -/
structure Written (v : Value) (t : Text) : Prop where
  again : canonicalJson v = .ok t
  clean : Clean t
  starts : StartsValue t
  parses : ParsesTo v t

theorem Clean.append {s t : Text} (hs : Clean s) (ht : Clean t) : Clean (s ++ t) := by
  refine ⟨?_, hs.paired.append ht.paired⟩
  intro u hu
  rcases List.mem_append.mp hu with hu | hu
  · exact hs.printable u hu
  · exact ht.printable u hu

theorem clean_nil : Clean [] := ⟨by simp, .nil⟩

/-- Units of ASCII from the space on. -/
theorem clean_ascii {t : Text} (h : ∀ u ∈ t, 32 ≤ u.toNat ∧ u.toNat < 128) : Clean t := by
  refine ⟨fun u hu => (h u hu).1, ?_⟩
  induction t with
  | nil => exact .nil
  | cons u r ih =>
    refine .unit ?_ (ih fun v hv => h v (List.mem_cons_of_mem _ hv))
    have := h u List.mem_cons_self
    simp only [isSurrogate, isHighSurrogate, isLowSurrogate, Bool.or_eq_false_iff,
      Bool.and_eq_false_iff, decide_eq_false_iff_not]
    omega

/-- The same, as a test. -/
theorem clean_of_all {t : Text} (h : (t.all fun u => 32 ≤ u.toNat && u.toNat < 128) = true) :
    Clean t :=
  clean_ascii fun u hu => by simpa using List.all_eq_true.mp h u hu

theorem Clean.cons {u : UInt16} {t : Text} (hu : 32 ≤ u.toNat ∧ u.toNat < 128) (ht : Clean t) :
    Clean (u :: t) :=
  Clean.append (s := [u]) (clean_ascii (by simpa using hu)) ht

theorem Clean.join {sep : UInt16} (hsep : 32 ≤ sep.toNat ∧ sep.toNat < 128) {ts : List Text}
    (h : ∀ t ∈ ts, Clean t) : Clean (join sep ts) := by
  induction ts with
  | nil => exact clean_nil
  | cons t ts ih =>
    cases ts with
    | nil => simpa using h t (by simp)
    | cons s ts =>
      rw [join_cons_cons]
      exact (h t (by simp)).append (.cons hsep (ih fun r hr => h r (List.mem_cons_of_mem _ hr)))

theorem hexUnit_ascii : ∀ d < 16, 32 ≤ (hexUnit d).toNat ∧ (hexUnit d).toNat < 128 := by decide

theorem clean_quoteUnit (u : UInt16) : Clean (quoteUnit u) := by
  have hlt := u.toNat_lt
  unfold quoteUnit
  split_ifs with h1 h2 h3 h4 h5 h6 h7 h8
  · exact clean_of_all rfl
  · exact clean_of_all rfl
  · exact clean_of_all rfl
  · exact clean_of_all rfl
  · exact clean_of_all rfl
  · exact clean_of_all rfl
  · exact clean_of_all rfl
  · refine clean_ascii ?_
    simp only [escapeHex, List.mem_cons, List.not_mem_nil, or_false]
    rintro v (rfl | rfl | rfl | rfl | rfl | rfl)
    · decide
    · decide
    · exact hexUnit_ascii _ (by omega)
    · exact hexUnit_ascii _ (by omega)
    · exact hexUnit_ascii _ (by omega)
    · exact hexUnit_ascii _ (by omega)
  · simp only [Bool.or_eq_true, decide_eq_true_eq, not_or, Bool.not_eq_true] at h8
    refine ⟨by simpa using h8.1.1, .unit ?_ .nil⟩
    simp [isSurrogate, h8.1.2, h8.2]

theorem clean_quoteUnits (t : Text) : Clean (quoteUnits t) := by
  fun_induction quoteUnits t with
  | case1 => exact clean_nil
  | case2 u => exact clean_quoteUnit u
  | case3 u v t h ih =>
    simp only [Bool.and_eq_true] at h
    have hu := h.1
    have hv := h.2
    simp only [isHighSurrogate, isLowSurrogate, Bool.and_eq_true, decide_eq_true_eq] at hu hv
    refine ⟨?_, .pair h.1 h.2 ih.paired⟩
    simp only [List.mem_cons]
    rintro w (rfl | rfl | hw)
    · omega
    · omega
    · exact ih.printable w hw
  | case4 u v t h ih => exact (clean_quoteUnit u).append ih

theorem clean_quote (t : Text) : Clean (quote t) :=
  .cons (by decide) ((clean_quoteUnits t).append (clean_of_all rfl))

theorem clean_intText (z : ℤ) : Clean (intText z) := by
  have hd : Clean (decimal z.natAbs) := by
    refine clean_ascii fun u hu => ?_
    have := decimal_digits _ u hu
    simp only [isDigit, Bool.and_eq_true, decide_eq_true_eq] at this
    omega
  unfold intText
  split
  · exact .cons (by decide) hd
  · exact hd

/-! ## What follows a value -/

theorem skipSpace_of_starts {t : Text} (h : StartsValue t) (r : Text) :
    skipSpace (t ++ r) = t ++ r := by
  obtain ⟨u, r', rfl, hu, -⟩ := h
  simp [skipSpace, hu]

theorem skipSpace_cons {u : UInt16} (hu : isSpace u = false) (r : Text) :
    skipSpace (u :: r) = u :: r := by
  simp [skipSpace, hu]

theorem numberEnd_cons {u : UInt16} (h : isDigit u = false ∧ u ≠ ch '.' ∧ u ≠ ch 'e' ∧ u ≠ ch 'E')
    (r : Text) : NumberEnd (u :: r) := by
  intro v hv
  simp only [List.head?_cons, Option.mem_def, Option.some.injEq] at hv
  exact hv ▸ h

/-! ## The values without parts -/

theorem parsesTo_quote (t : Text) : ParsesTo (.str t) (quote t) := by
  intro n r hn _
  obtain ⟨m, rfl⟩ : ∃ m, n = m + 1 := ⟨n - 1, by simp [quote] at hn; omega⟩
  unfold parseValue quote
  rw [List.cons_append, skipSpace_cons (by decide)]
  simp only [if_true, List.append_assoc, List.cons_append, List.nil_append,
    parseUnits_quoteUnits, Option.map_some]

theorem written_str (t : Text) : Written (.str t) (quote t) where
  again := rfl
  clean := clean_quote t
  starts := ⟨ch '"', _, rfl, by decide, by decide, by decide⟩
  parses := parsesTo_quote t

/-- An integer begins with a minus sign or a digit. -/
theorem intText_head (z : ℤ) : ∃ u r, intText z = u :: r ∧ (u = ch '-' ∨ isDigit u = true) := by
  unfold intText
  split
  · exact ⟨_, _, rfl, Or.inl rfl⟩
  · cases h : decimal z.natAbs with
    | nil => exact absurd h (decimal_ne_nil _)
    | cons u r => exact ⟨u, r, rfl, Or.inr (decimal_digits z.natAbs u (by rw [h]; simp))⟩

theorem number_head {u : UInt16} (h : u = ch '-' ∨ isDigit u = true) :
    isSpace u = false ∧ u ≠ ch ']' ∧ u ≠ ch '}' ∧ u ≠ ch '"' ∧ u ≠ ch '[' ∧ u ≠ ch '{' := by
  rcases h with rfl | h
  · decide
  · simp only [isDigit, Bool.and_eq_true, decide_eq_true_eq] at h
    have ne : ∀ c : Char, (ch c).toNat < 48 ∨ 57 < (ch c).toNat → u ≠ ch c := by
      rintro c hc rfl
      omega
    have nl : ∀ w : UInt16, w.toNat < 48 → u ≠ w := by
      rintro w hw rfl
      omega
    refine ⟨?_, ne _ (by decide), ne _ (by decide), ne _ (by decide), ne _ (by decide),
      ne _ (by decide)⟩
    simp [isSpace, nl 32 (by decide), nl 9 (by decide), nl 10 (by decide), nl 13 (by decide)]

theorem written_num {n : Number} {z : ℤ} (h : n.safe? = some z) :
    Written (.num n) (intText z) := by
  obtain ⟨rfl, hz⟩ := Number.safe?_eq_some h
  obtain ⟨u, t, ht, hu⟩ := intText_head z
  obtain ⟨h1, h2, h3, h4, h5, h6⟩ := number_head hu
  refine ⟨by simp [canonicalJson, h], clean_intText z, ⟨u, t, ht, h1, h2, h3⟩, ?_⟩
  intro n r hn hr
  obtain ⟨m, rfl⟩ : ∃ m, n = m + 1 := ⟨n - 1, by rw [ht] at hn; simp at hn; omega⟩
  have hp := parseNumber_intText hz hr
  rw [ht, List.cons_append] at hp ⊢
  unfold parseValue
  rw [skipSpace_cons h1]
  have hu' : (u = ch '-' || isDigit u) = true := by simpa using hu
  simp only [h4, h5, h6, hu', if_false, if_true, hp, Option.map_some]

theorem written_null : Written .null (js "null") where
  again := rfl
  clean := clean_of_all rfl
  starts := ⟨_, _, rfl, by decide, by decide, by decide⟩
  parses := by
    intro n r hn _
    obtain ⟨m, rfl⟩ : ∃ m, n = m + 1 := ⟨n - 1, by simp [js] at hn; omega⟩
    rfl

theorem written_bool (b : Bool) : Written (.bool b) (if b then js "true" else js "false") := by
  cases b
  · refine ⟨rfl, clean_of_all rfl, ⟨_, _, rfl, by decide, by decide, by decide⟩, ?_⟩
    intro n r hn _
    obtain ⟨m, rfl⟩ : ∃ m, n = m + 1 := ⟨n - 1, by simp [js] at hn; omega⟩
    rfl
  · refine ⟨rfl, clean_of_all rfl, ⟨_, _, rfl, by decide, by decide, by decide⟩, ?_⟩
    intro n r hn _
    obtain ⟨m, rfl⟩ : ∃ m, n = m + 1 := ⟨n - 1, by simp [js] at hn; omega⟩
    rfl

/-! ## Arrays -/

theorem ParsesTo.run {v : Value} {t : Text} (h : ParsesTo v t) {n : Nat} (hn : 2 * t.length ≤ n)
    {u : UInt16} (hu : isDigit u = false ∧ u ≠ ch '.' ∧ u ≠ ch 'e' ∧ u ≠ ch 'E') (r : Text) :
    parseValue n (t ++ u :: r) = some (v, u :: r) :=
  h n (u :: r) hn (numberEnd_cons hu r)

theorem startsValue_join (sep : UInt16) {t : Text} (ts : List Text) (h : StartsValue t) :
    StartsValue (join sep (t :: ts)) := by
  obtain ⟨u, r, rfl, hu⟩ := h
  cases ts with
  | nil => exact ⟨u, r, by simp, hu⟩
  | cons s ts => exact ⟨u, _, by rw [join_cons_cons, List.cons_append], hu⟩

theorem parseItems_written {vs : List Value} {ts : List Text} (h : List.Forall₂ Written vs ts)
    (hne : ts ≠ []) (n : Nat) (r : Text) (acc : List Value)
    (hn : 2 * (join (ch ',') ts).length + 1 ≤ n) :
    parseItems n (join (ch ',') ts ++ ch ']' :: r) acc = some (.arr (acc ++ vs), r) := by
  induction h generalizing n acc with
  | nil => exact absurd rfl hne
  | @cons v t vs ts hvt h ih =>
    obtain ⟨m, rfl⟩ : ∃ m, n = m + 1 := ⟨n - 1, by omega⟩
    cases h with
    | nil =>
      simp only [join_singleton] at hn ⊢
      unfold parseItems
      rw [hvt.parses.run (by omega) (by decide)]
      simp [skipSpace_cons (u := ch ']') (by decide), show ch ']' ≠ ch ',' by decide]
    | @cons w s vs ts hws h =>
      rw [join_cons_cons] at hn ⊢
      simp only [List.length_append, List.length_cons] at hn
      rw [List.append_assoc, List.cons_append]
      unfold parseItems
      rw [hvt.parses.run (by omega) (by decide)]
      have htail := ih (by simp) m (acc ++ [v]) (by omega)
      rw [List.append_assoc] at htail
      simpa [skipSpace_cons (u := ch ',') (by decide)] using htail

theorem canonicalItems_written {vs : List Value} {ts : List Text}
    (h : List.Forall₂ Written vs ts) : canonicalItems vs = .ok ts := by
  induction h with
  | nil => rfl
  | cons hvt _ ih => simp only [canonicalItems, hvt.again, ih]; rfl

theorem clean_of_written {vs : List Value} {ts : List Text} (h : List.Forall₂ Written vs ts) :
    ∀ t ∈ ts, Clean t := by
  induction h with
  | nil => simp
  | cons hvt _ ih =>
    intro t ht
    rcases List.mem_cons.mp ht with rfl | ht
    · exact hvt.clean
    · exact ih t ht

theorem written_arr {vs : List Value} {ts : List Text} (h : List.Forall₂ Written vs ts) :
    Written (.arr vs) (ch '[' :: (join (ch ',') ts ++ [ch ']'])) where
  again := by simp only [canonicalJson, canonicalItems_written h]; rfl
  clean := .cons (by decide) ((Clean.join (by decide) (clean_of_written h)).append
    (clean_of_all rfl))
  starts := ⟨ch '[', _, rfl, by decide, by decide, by decide⟩
  parses := by
    intro n r hn _
    simp only [List.length_cons, List.length_append, List.length_nil] at hn
    obtain ⟨m, rfl⟩ : ∃ m, n = m + 1 := ⟨n - 1, by omega⟩
    unfold parseValue
    rw [List.cons_append, List.append_assoc, List.cons_append, List.nil_append,
      skipSpace_cons (by decide)]
    have h1 : ch '[' ≠ ch '"' := by decide
    simp only [h1, if_false, if_true]
    cases h with
    | nil =>
      simp [skipSpace_cons (u := ch ']') (by decide)]
    | @cons v t vs ts hvt h =>
      have hitems := parseItems_written (.cons hvt h) (by simp) m r [] (by omega)
      have hstart := startsValue_join (ch ',') ts hvt.starts
      rw [skipSpace_of_starts hstart]
      obtain ⟨u, r', hu, -, hclose, -⟩ := hstart
      rw [hu] at hitems ⊢
      simpa only [List.cons_append, hclose, if_false, List.nil_append] using hitems

/-! ## Objects -/

theorem setField_new {fs : List (Text × Value)} {k : Text} (h : k ∉ keys fs) (v : Value) :
    setField fs k v = fs ++ [(k, v)] := by
  simp [setField, h]

theorem parsePair_written {v : Value} {t : Text} (h : Written v t) (k : Text) {u : UInt16}
    (hu : isDigit u = false ∧ u ≠ ch '.' ∧ u ≠ ch 'e' ∧ u ≠ ch 'E') (hs : isSpace u = false)
    {n : Nat} (hn : 2 * t.length ≤ n) (r : Text) (acc : List (Text × Value)) :
    parseFields (n + 1) (pairText (k, t) ++ u :: r) acc =
      if u = ch ',' then parseFields n r (setField acc k v)
      else if u = ch '}' then some (.obj (setField acc k v), r)
      else none := by
  rw [parseFields.eq_def]
  simp only [pairText, quote, List.cons_append, List.append_assoc, List.nil_append]
  rw [skipSpace_cons (by decide)]
  simp only [if_true, parseUnits_quoteUnits, Option.bind_eq_bind, Option.bind_some,
    skipSpace_cons (u := ch ':') (by decide), h.parses.run hn hu, skipSpace_cons hs]

theorem parseFields_written {fs : List (Text × Value)} {ps : List (Text × Text)}
    (h : SameKeys Written fs ps) (hne : ps ≠ []) (n : Nat) (r : Text)
    (acc : List (Text × Value)) (hd : (keys (acc ++ fs)).Nodup)
    (hn : 2 * (join (ch ',') (ps.map pairText)).length + 1 ≤ n) :
    parseFields n (join (ch ',') (ps.map pairText) ++ ch '}' :: r) acc =
      some (.obj (acc ++ fs), r) := by
  induction h generalizing n acc with
  | nil => exact absurd rfl hne
  | @cons f p fs ps hfp h ih =>
    obtain ⟨k, v⟩ := f
    obtain ⟨k', t⟩ := p
    obtain ⟨rfl, hvt⟩ : k = k' ∧ Written v t := hfp
    obtain ⟨m, rfl⟩ : ∃ m, n = m + 1 := ⟨n - 1, by omega⟩
    have hset : setField acc k v = acc ++ [(k, v)] := by
      apply setField_new
      intro hk
      simp only [keys, List.map_append, List.map_cons] at hd
      exact (List.nodup_append.mp hd).2.2 k hk k List.mem_cons_self rfl
    have hlen : 2 * t.length + 2 ≤ 2 * (pairText (k, t)).length := by
      simp only [pairText, List.length_append, List.length_cons]
      omega
    cases h with
    | nil =>
      simp only [List.map_cons, List.map_nil, join_singleton] at hn ⊢
      rw [parsePair_written hvt k (by decide) (by decide) (by omega), hset]
      rw [if_neg (by decide), if_pos rfl]
    | @cons g q fs ps hgq h =>
      simp only [List.map_cons, join_cons_cons] at hn ih ⊢
      simp only [List.length_append, List.length_cons] at hn
      rw [List.append_assoc, List.cons_append,
        parsePair_written hvt k (by decide) (by decide) (by omega), hset, if_pos rfl]
      have htail := ih (by simp) m (acc ++ [(k, v)]) (by simpa [keys] using hd) (by omega)
      rw [List.append_assoc] at htail
      exact htail

theorem Written.ne_undefined {v : Value} {t : Text} (h : Written v t) : v ≠ .undefined := by
  rintro rfl
  cases h.again

theorem canonicalPairs_cons {k : Text} {v : Value} (hv : v ≠ .undefined)
    (fs : List (Text × Value)) :
    canonicalPairs ((k, v) :: fs) = (do
      let t ← canonicalJson v
      let ps ← canonicalPairs fs
      return (k, t) :: ps) := by
  cases v with
  | undefined => exact absurd rfl hv
  | _ => rfl

theorem canonicalPairs_written {fs : List (Text × Value)} {ps : List (Text × Text)}
    (h : SameKeys Written fs ps) : canonicalPairs fs = .ok ps := by
  induction h with
  | nil => rfl
  | @cons f p fs ps hfp _ ih =>
    obtain ⟨k, v⟩ := f
    obtain ⟨k', t⟩ := p
    obtain ⟨rfl, hvt⟩ : k = k' ∧ Written v t := hfp
    rw [canonicalPairs_cons hvt.ne_undefined, hvt.again, ih]
    rfl

theorem clean_pairText {k t : Text} (h : Clean t) : Clean (pairText (k, t)) :=
  (clean_quote k).append (.cons (by decide) h)

theorem clean_of_sameKeys {fs : List (Text × Value)} {ps : List (Text × Text)}
    (h : SameKeys Written fs ps) : ∀ t ∈ ps.map pairText, Clean t := by
  induction h with
  | nil => simp
  | @cons f p fs ps hfp _ ih =>
    intro t ht
    rcases List.mem_cons.mp ht with rfl | ht
    · exact clean_pairText hfp.2.clean
    · exact ih t ht

/-- Two lists of fields with the same keys are sorted together. -/
theorem sorted_of_sameKeys {R : Value → Text → Prop} {fs : List (Text × Value)}
    {ps : List (Text × Text)} (h : SameKeys R fs ps)
    (hs : fs.Pairwise fun a b => textLe a.1 b.1 = true) :
    ps.Pairwise fun a b => textLe a.1 b.1 = true := by
  have hk := keys_of_sameKeys h
  have hs' : (keys fs).Pairwise fun a b => textLe a b = true := List.pairwise_map.mpr hs
  rw [hk] at hs'
  exact List.pairwise_map.mp hs'

theorem written_obj {fs : List (Text × Value)} {ps : List (Text × Text)}
    (h : SameKeys Written fs ps) (hs : fs.Pairwise fun a b => textLe a.1 b.1 = true)
    (hd : (keys fs).Nodup) :
    Written (.obj fs) (ch '{' :: (join (ch ',') (ps.map pairText) ++ [ch '}'])) where
  again := by
    simp only [canonicalJson, canonicalPairs_written h]
    change Except.ok _ = _
    rw [sortByKey_of_sorted (sorted_of_sameKeys h hs)]
  clean := .cons (by decide) ((Clean.join (by decide) (clean_of_sameKeys h)).append
    (clean_of_all rfl))
  starts := ⟨ch '{', _, rfl, by decide, by decide, by decide⟩
  parses := by
    intro n r hn _
    simp only [List.length_cons, List.length_append, List.length_nil] at hn
    obtain ⟨m, rfl⟩ : ∃ m, n = m + 1 := ⟨n - 1, by omega⟩
    unfold parseValue
    rw [List.cons_append, List.append_assoc, List.cons_append, List.nil_append,
      skipSpace_cons (by decide)]
    have h1 : ch '{' ≠ ch '"' := by decide
    have h2 : ch '{' ≠ ch '[' := by decide
    simp only [h1, h2, if_false, if_true]
    cases h with
    | nil =>
      simp [skipSpace_cons (u := ch '}') (by decide)]
    | @cons f p fs ps hfp h =>
      have hfields := parseFields_written (.cons hfp h) (by simp) m r [] hd (by omega)
      have hstart : StartsValue (join (ch ',') ((p :: ps).map pairText)) :=
        startsValue_join _ _ ⟨ch '"', _, rfl, by decide, by decide, by decide⟩
      rw [skipSpace_of_starts hstart]
      obtain ⟨u, r', hu, -, -, hclose⟩ := hstart
      rw [hu] at hfields ⊢
      simpa only [List.cons_append, hclose, if_false, List.nil_append] using hfields

/-! ## Every value -/

mutual
/-- What the journal writes is read back, up to undefined fields and the order of keys. -/
theorem written_of_canonicalJson : ∀ {v : Value} {t : Text}, canonicalJson v = .ok t →
    v.Distinct → Written (canon v) t
  | .null, t, h, _ => by
    obtain rfl : js "null" = t := by simpa [canonicalJson] using h
    exact written_null
  | .bool b, t, h, _ => by
    obtain rfl : (if b then js "true" else js "false") = t := by simpa [canonicalJson] using h
    exact written_bool b
  | .str s, t, h, _ => by
    obtain rfl : quote s = t := by simpa [canonicalJson] using h
    exact written_str s
  | .num n, t, h, _ => by
    unfold canonicalJson at h
    split at h
    · rename_i z hz
      obtain rfl : intText z = t := by simpa using h
      exact written_num hz
    · cases h
  | .arr items, t, h, hd => by
    unfold canonicalJson at h
    cases hts : canonicalItems items with
    | error e => rw [hts] at h; cases h
    | ok ts =>
      rw [hts] at h
      obtain rfl : ch '[' :: (join (ch ',') ts ++ [ch ']']) = t := Except.ok.inj h
      exact written_arr (written_of_canonicalItems hts hd)
  | .obj fields, t, h, hd => by
    unfold canonicalJson at h
    cases hps : canonicalPairs fields with
    | error e => rw [hps] at h; cases h
    | ok ps =>
      rw [hps] at h
      obtain rfl := Except.ok.inj h
      have hw := written_of_canonicalPairs hps hd.2
      exact written_obj (sameKeys_sortByKey hw) (sortByKey_sorted _)
        (keys_sortByKey_nodup ((keys_canonFields_sublist fields).nodup hd.1))
  | .undefined, t, h, _ => by cases h
theorem written_of_canonicalItems : ∀ {vs : List Value} {ts : List Text},
    canonicalItems vs = .ok ts → distinctItems vs → List.Forall₂ Written (canonItems vs) ts
  | [], ts, h, _ => by
    obtain rfl : [] = ts := Except.ok.inj h
    exact .nil
  | v :: vs, ts, h, hd => by
    unfold canonicalItems at h
    cases ht : canonicalJson v with
    | error e => rw [ht] at h; cases h
    | ok t =>
      cases hts : canonicalItems vs with
      | error e => rw [ht, hts] at h; cases h
      | ok ts' =>
        rw [ht, hts] at h
        obtain rfl := Except.ok.inj h
        exact .cons (written_of_canonicalJson ht hd.1) (written_of_canonicalItems hts hd.2)
theorem written_of_canonicalPairs : ∀ {fs : List (Text × Value)} {ps : List (Text × Text)},
    canonicalPairs fs = .ok ps → distinctFields fs → SameKeys Written (canonFields fs) ps
  | [], ps, h, _ => by
    obtain rfl : [] = ps := Except.ok.inj h
    exact .nil
  | (k, v) :: fs, ps, h, hd => by
    by_cases hv : v = .undefined
    · subst hv
      have hp : canonicalPairs fs = .ok ps := h
      have hw := written_of_canonicalPairs hp hd.2
      exact hw
    · rw [canonicalPairs_cons hv] at h
      rw [canonFields_cons hv]
      cases ht : canonicalJson v with
      | error e => rw [ht] at h; cases h
      | ok t =>
        cases hps : canonicalPairs fs with
        | error e => rw [ht, hps] at h; cases h
        | ok ps' =>
          rw [ht, hps] at h
          obtain rfl := Except.ok.inj h
          exact .cons ⟨rfl, written_of_canonicalJson ht hd.1⟩
            (written_of_canonicalPairs hps hd.2)
end

/-- `JSON.parse` of a written text gives the value's normal form. -/
theorem Written.parseJson {v : Value} {t : Text} (h : Written v t) : parseJson t = .ok v := by
  have hp := h.parses (2 * t.length + 2) [] (by omega) (by simp [NumberEnd])
  rw [List.append_nil] at hp
  simp [Js.parseJson, hp, skipSpace]

end Klick
