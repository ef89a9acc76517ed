-- Values in normal form: objects with distinct keys in their order. What a
-- program does with a value seldom depends on the order of the keys, so a
-- request is read in this form.
import Klick.Json
import Klick.Coercion

namespace Js

/-! ## The normal form is its own normal form -/

theorem canon_ne_undefined {v : Value} (h : v ≠ .undefined) : canon v ≠ .undefined := by
  cases v with
  | undefined => exact absurd rfl h
  | _ => simp [canon]

/-- Fields that are normal and defined. -/
def NormalFields (fs : List (Text × Value)) : Prop :=
  ∀ f ∈ fs, f.2 ≠ .undefined ∧ canon f.2 = f.2

theorem canonFields_of_normal {fs : List (Text × Value)} (h : NormalFields fs) :
    canonFields fs = fs := by
  induction fs with
  | nil => rfl
  | cons f fs ih =>
    obtain ⟨k, v⟩ := f
    obtain ⟨hv, hc⟩ := h _ List.mem_cons_self
    rw [canonFields_cons hv, hc, ih fun g hg => h g (List.mem_cons_of_mem _ hg)]

mutual
theorem canon_canon : ∀ v : Value, canon (canon v) = canon v
  | .arr items => by
    simp only [canon]
    rw [canonItems_canonItems items]
  | .obj fields => by
    simp only [canon]
    have hn : NormalFields (sortByKey (canonFields fields)) := fun f hf =>
      normalFields_canonFields fields f ((sortByKey_perm _).mem_iff.mp hf)
    rw [canonFields_of_normal hn, sortByKey_of_sorted (sortByKey_sorted _)]
  | .undefined => rfl
  | .null => rfl
  | .bool _ => rfl
  | .num _ => rfl
  | .str _ => rfl
theorem canonItems_canonItems : ∀ vs : List Value, canonItems (canonItems vs) = canonItems vs
  | [] => rfl
  | v :: vs => by
    simp only [canonItems]
    rw [canon_canon v, canonItems_canonItems vs]
theorem normalFields_canonFields : ∀ fs : List (Text × Value), NormalFields (canonFields fs)
  | [] => by
    intro f hf
    cases hf
  | (k, v) :: fs => by
    have hv := canon_canon v
    have hfs := normalFields_canonFields fs
    by_cases hu : v = .undefined
    · subst hu
      exact hfs
    · rw [canonFields_cons hu]
      intro f hf
      rcases List.mem_cons.mp hf with rfl | hf
      · exact ⟨canon_ne_undefined hu, hv⟩
      · exact hfs f hf
end

mutual
/-- The normal form has distinct keys where the value has. -/
theorem distinct_canon : ∀ v : Value, v.Distinct → (canon v).Distinct
  | .arr items => fun h => distinctItems_canonItems items h
  | .obj fields => fun h => by
    obtain ⟨hk, hd⟩ := h
    have hk' : (keys (canonFields fields)).Nodup := (keys_canonFields_sublist fields).nodup hk
    refine ⟨keys_sortByKey_nodup hk', ?_⟩
    have hd' := distinctFields_canonFields fields hd
    rw [distinctFields_iff] at hd' ⊢
    intro f hf
    exact hd' f ((sortByKey_perm _).mem_iff.mp hf)
  | .undefined => fun _ => trivial
  | .null => fun _ => trivial
  | .bool _ => fun _ => trivial
  | .num _ => fun _ => trivial
  | .str _ => fun _ => trivial
theorem distinctItems_canonItems : ∀ vs : List Value, distinctItems vs →
    distinctItems (canonItems vs)
  | [] => fun h => h
  | v :: vs => fun h => ⟨distinct_canon v h.1, distinctItems_canonItems vs h.2⟩
theorem distinctFields_canonFields : ∀ fs : List (Text × Value), distinctFields fs →
    distinctFields (canonFields fs)
  | [] => fun h => h
  | (k, v) :: fs => fun h => by
    have hv := distinct_canon v h.1
    have hfs := distinctFields_canonFields fs h.2
    by_cases hu : v = .undefined
    · subst hu
      exact hfs
    · rw [canonFields_cons hu]
      exact ⟨hv, hfs⟩
end

/-! ## Deciding equality -/

mutual
/-- The same value, with the fields of objects in the same order. -/
def Value.beq : Value → Value → Bool
  | .undefined, .undefined => true
  | .null, .null => true
  | .bool a, .bool b => a = b
  | .num a, .num b => a = b
  | .str a, .str b => a = b
  | .arr as, .arr bs => beqItems as bs
  | .obj as, .obj bs => beqFields as bs
  | _, _ => false
def beqItems : List Value → List Value → Bool
  | [], [] => true
  | a :: as, b :: bs => a.beq b && beqItems as bs
  | _, _ => false
def beqFields : List (Text × Value) → List (Text × Value) → Bool
  | [], [] => true
  | (k, a) :: as, (l, b) :: bs => k = l && a.beq b && beqFields as bs
  | _, _ => false
end

mutual
theorem Value.beq_eq : ∀ a b : Value, a.beq b = true ↔ a = b
  | .arr as, b => by
    cases b with
    | arr bs => simp only [Value.beq, Value.arr.injEq, beqItems_eq as bs]
    | _ => simp [Value.beq]
  | .obj as, b => by
    cases b with
    | obj bs => simp only [Value.beq, Value.obj.injEq, beqFields_eq as bs]
    | _ => simp [Value.beq]
  | .undefined, b => by cases b <;> simp [Value.beq]
  | .null, b => by cases b <;> simp [Value.beq]
  | .bool _, b => by cases b <;> simp [Value.beq]
  | .num _, b => by cases b <;> simp [Value.beq]
  | .str _, b => by cases b <;> simp [Value.beq]
theorem beqItems_eq : ∀ as bs : List Value, beqItems as bs = true ↔ as = bs
  | [], bs => by cases bs <;> simp [beqItems]
  | a :: as, bs => by
    cases bs with
    | nil => simp [beqItems]
    | cons b bs => simp [beqItems, Value.beq_eq a b, beqItems_eq as bs]
theorem beqFields_eq : ∀ as bs : List (Text × Value), beqFields as bs = true ↔ as = bs
  | [], bs => by cases bs <;> simp [beqFields]
  | (k, a) :: as, bs => by
    cases bs with
    | nil => simp [beqFields]
    | cons b bs =>
      obtain ⟨l, b⟩ := b
      simp [beqFields, Value.beq_eq a b, beqFields_eq as bs, and_assoc]
end

instance : DecidableEq Value := fun a b => decidable_of_iff _ (Value.beq_eq a b)

mutual
def Value.decDistinct : ∀ v : Value, Decidable v.Distinct
  | .arr items => decDistinctItems items
  | .obj fields => @instDecidableAnd _ _ inferInstance (decDistinctFields fields)
  | .undefined => isTrue trivial
  | .null => isTrue trivial
  | .bool _ => isTrue trivial
  | .num _ => isTrue trivial
  | .str _ => isTrue trivial
def decDistinctItems : ∀ vs : List Value, Decidable (distinctItems vs)
  | [] => isTrue trivial
  | v :: vs => @instDecidableAnd _ _ v.decDistinct (decDistinctItems vs)
def decDistinctFields : ∀ fs : List (Text × Value), Decidable (distinctFields fs)
  | [] => isTrue trivial
  | (_, v) :: fs => @instDecidableAnd _ _ v.decDistinct (decDistinctFields fs)
end

instance : DecidablePred Value.Distinct := Value.decDistinct

/-! ## Properties by name -/

/-- A name of ASCII characters. -/
def isAsciiName (s : String) : Bool := s.toList.all fun c => c.toNat < 128

theorem ch_injective {c d : Char} (hc : c.toNat < 65536) (hd : d.toNat < 65536)
    (h : ch c = ch d) : c = d := by
  have hn := congrArg UInt16.toNat h
  simp only [ch, UInt16.toNat_ofNat'] at hn
  rw [Nat.mod_eq_of_lt hc, Nat.mod_eq_of_lt hd] at hn
  exact Char.ext (UInt32.toNat_inj.mp hn)

theorem map_ch_injective {l m : List Char} (hl : ∀ c ∈ l, c.toNat < 128)
    (hm : ∀ c ∈ m, c.toNat < 128) (h : l.map ch = m.map ch) : l = m := by
  induction l generalizing m with
  | nil => simpa using h
  | cons c l ih =>
    cases m with
    | nil => simp at h
    | cons d m =>
      simp only [List.map_cons, List.cons.injEq] at h
      have hc := hl c List.mem_cons_self
      have hd := hm d List.mem_cons_self
      have htail := ih (fun x hx => hl x (List.mem_cons_of_mem _ hx))
        (fun x hx => hm x (List.mem_cons_of_mem _ hx)) h.2
      rw [ch_injective (by omega) (by omega) h.1, htail]

theorem js_injective {s t : String} (hs : isAsciiName s = true) (ht : isAsciiName t = true)
    (h : js s = js t) : s = t := by
  simp only [isAsciiName, List.all_eq_true, decide_eq_true_eq] at hs ht
  exact String.toList_inj.mp (map_ch_injective hs ht h)

/-- The value of a name in an object literal. -/
def namedGet : List (String × Value) → String → Value
  | [], _ => .undefined
  | (name, v) :: fs, k => if name = k then v else namedGet fs k

theorem get_named {fs : List (String × Value)} {k : String}
    (hfs : ∀ f ∈ fs, isAsciiName f.1 = true) (hk : isAsciiName k = true) :
    (Value.obj (named fs)).get (js k) = namedGet fs k := by
  rw [Value.get_obj]
  induction fs with
  | nil => rfl
  | cons f fs ih =>
    have ih := ih fun g hg => hfs g (List.mem_cons_of_mem _ hg)
    simp only [named, List.map_cons, lookup, namedGet]
    by_cases hf : f.1 = k
    · simp [hf]
    · have hne : js f.1 ≠ js k := fun he => hf (js_injective (hfs f List.mem_cons_self) hk he)
      simp only [if_neg hne, if_neg hf]
      exact ih

theorem namedGet_of_mem {fs : List (String × Value)} (hd : (fs.map Prod.fst).Nodup) {k : String}
    {v : Value} (h : (k, v) ∈ fs) : namedGet fs k = v := by
  induction fs with
  | nil => cases h
  | cons f fs ih =>
    obtain ⟨name, w⟩ := f
    obtain ⟨hname, hd⟩ := List.nodup_cons.mp hd
    rcases List.mem_cons.mp h with he | h
    · cases he
      exact if_pos rfl
    · have hne : name ≠ k := by
        rintro rfl
        exact hname (List.mem_map.mpr ⟨_, h, rfl⟩)
      rw [namedGet, if_neg hne]
      exact ih hd h

/-! ## Values in normal form -/

/-- Distinct keys in their order. -/
structure Value.Normal (v : Value) : Prop where
  distinct : v.Distinct
  canon_eq : canon v = v

instance (v : Value) : Decidable v.Normal :=
  decidable_of_iff (v.Distinct ∧ canon v = v) ⟨fun h => ⟨h.1, h.2⟩, fun h => ⟨h.1, h.2⟩⟩

/-- A value that was read from JSON, in normal form. -/
structure Json where
  value : Value
  normal : value.Normal

/-- The normal form of what `JSON.parse` has read. -/
def Json.ofParsed (v : Value) (h : v.Distinct) : Json := ⟨canon v, distinct_canon v h, canon_canon v⟩

theorem Value.Normal.get {fs : List (Text × Value)} (h : (Value.obj fs).Normal) (k : Text) :
    ((Value.obj fs).get k).Normal := by
  constructor
  · rw [Value.get_obj]
    cases hl : lookup k fs with
    | none => exact trivial
    | some v =>
      have hm := (lookup_eq_some_iff h.distinct.1 k v).mp hl
      exact distinctFields_iff.mp h.distinct.2 _ hm
  · have hg := canon_get h.distinct.1 k
    rw [h.canon_eq] at hg
    exact hg.symm

theorem Value.Normal.item {vs : List Value} (h : (Value.arr vs).Normal) {v : Value} (hv : v ∈ vs) :
    v.Normal := by
  refine ⟨distinctItems_iff.mp h.distinct v hv, ?_⟩
  have hc : canonItems vs = vs := Value.arr.inj h.canon_eq
  clear h
  induction vs with
  | nil => cases hv
  | cons w ws ih =>
    simp only [canonItems, List.cons.injEq] at hc
    rcases List.mem_cons.mp hv with rfl | hv
    · exact hc.1
    · exact ih hv hc.2

theorem Value.normal_str (t : Text) : (Value.str t).Normal := ⟨trivial, rfl⟩

theorem Value.normal_int (z : ℤ) : (Value.int z).Normal := ⟨trivial, rfl⟩

theorem Value.normal_bool (b : Bool) : (Value.bool b).Normal := ⟨trivial, rfl⟩

end Js
