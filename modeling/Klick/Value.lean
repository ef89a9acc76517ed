-- Data values of JavaScript: what JSON can carry, and `undefined`. The
-- order of the fields of an object is kept, and forgotten by `canon`.
import Klick.Binary64

namespace Js

inductive Value
  | undefined
  | null
  | bool (b : Bool)
  | num (n : Number)
  | str (t : Text)
  | arr (items : List Value)
  | obj (fields : List (Text × Value))
deriving Repr

/-! ## Texts in their order -/

/-- The order of `Array.prototype.sort`: by UTF-16 code units. -/
def textLe : Text → Text → Bool
  | [], _ => true
  | _ :: _, [] => false
  | a :: s, b :: t => a.toNat < b.toNat || (a == b && textLe s t)

theorem textLe_refl (s : Text) : textLe s s = true := by
  induction s with
  | nil => rfl
  | cons a s ih => simp [textLe, ih]

theorem textLe_total (s t : Text) : textLe s t = true ∨ textLe t s = true := by
  induction s generalizing t with
  | nil => exact Or.inl rfl
  | cons a s ih =>
    cases t with
    | nil => exact Or.inr rfl
    | cons b t =>
      simp only [textLe, Bool.or_eq_true, decide_eq_true_eq, Bool.and_eq_true, beq_iff_eq]
      rcases lt_trichotomy a.toNat b.toNat with h | h | h
      · exact Or.inl (Or.inl h)
      · have hab := UInt16.toNat_inj.mp h
        rcases ih t with h' | h'
        · exact Or.inl (Or.inr ⟨hab, h'⟩)
        · exact Or.inr (Or.inr ⟨hab.symm, h'⟩)
      · exact Or.inr (Or.inl h)

theorem textLe_trans {s t r : Text} (h1 : textLe s t = true) (h2 : textLe t r = true) :
    textLe s r = true := by
  induction s generalizing t r with
  | nil => rfl
  | cons a s ih =>
    cases t with
    | nil => simp [textLe] at h1
    | cons b t =>
      cases r with
      | nil => simp [textLe] at h2
      | cons c r =>
        simp only [textLe, Bool.or_eq_true, decide_eq_true_eq, Bool.and_eq_true,
          beq_iff_eq] at h1 h2 ⊢
        rcases h1 with h1 | ⟨rfl, h1⟩ <;> rcases h2 with h2 | ⟨rfl, h2⟩
        · exact Or.inl (by omega)
        · exact Or.inl h1
        · exact Or.inl h2
        · exact Or.inr ⟨rfl, ih h1 h2⟩

theorem textLe_antisymm {s t : Text} (h1 : textLe s t = true) (h2 : textLe t s = true) :
    s = t := by
  induction s generalizing t with
  | nil =>
    cases t with
    | nil => rfl
    | cons b t => simp [textLe] at h2
  | cons a s ih =>
    cases t with
    | nil => simp [textLe] at h1
    | cons b t =>
      simp only [textLe, Bool.or_eq_true, decide_eq_true_eq, Bool.and_eq_true,
        beq_iff_eq] at h1 h2
      rcases h1 with h1 | ⟨rfl, h1⟩
      · rcases h2 with h2 | ⟨rfl, _⟩ <;> omega
      · rcases h2 with h2 | ⟨_, h2⟩
        · omega
        · rw [ih h1 h2]

/-! ## Fields by their keys -/

section Fields

variable {α β : Type}

/-- Sort by key. -/
def sortByKey (fs : List (Text × α)) : List (Text × α) :=
  fs.insertionSort fun a b => textLe a.1 b.1 = true

def keys (fs : List (Text × α)) : List Text := fs.map Prod.fst

/-- The value at a key. -/
def lookup (k : Text) : List (Text × α) → Option α
  | [] => none
  | (k', v) :: fs => if k' = k then some v else lookup k fs

instance : Std.Total fun a b : Text × α => textLe a.1 b.1 = true :=
  ⟨fun a b => textLe_total a.1 b.1⟩

instance : IsTrans (Text × α) fun a b => textLe a.1 b.1 = true :=
  ⟨fun _ _ _ => textLe_trans⟩

theorem sortByKey_perm (fs : List (Text × α)) : (sortByKey fs).Perm fs :=
  List.perm_insertionSort _ fs

theorem sortByKey_sorted (fs : List (Text × α)) :
    (sortByKey fs).Pairwise fun a b => textLe a.1 b.1 = true :=
  List.pairwise_insertionSort _ fs

theorem sortByKey_of_sorted {fs : List (Text × α)}
    (h : fs.Pairwise fun a b => textLe a.1 b.1 = true) : sortByKey fs = fs :=
  h.insertionSort_eq

theorem keys_sortByKey_nodup {fs : List (Text × α)} (h : (keys fs).Nodup) :
    (keys (sortByKey fs)).Nodup :=
  ((sortByKey_perm fs).map Prod.fst).nodup_iff.mpr h

theorem lookup_eq_some_iff {fs : List (Text × α)} (h : (keys fs).Nodup) (k : Text) (v : α) :
    lookup k fs = some v ↔ (k, v) ∈ fs := by
  induction fs with
  | nil => simp [lookup]
  | cons f fs ih =>
    obtain ⟨k', v'⟩ := f
    simp only [keys, List.map_cons, List.nodup_cons] at h
    simp only [lookup, List.mem_cons, Prod.mk.injEq]
    by_cases hk : k' = k
    · subst hk
      simp only [if_true, Option.some.injEq]
      constructor
      · intro hv
        exact Or.inl ⟨trivial, hv.symm⟩
      · rintro (⟨_, hv⟩ | hv)
        · exact hv.symm
        · exact absurd (List.mem_map_of_mem (f := Prod.fst) hv) h.1
    · rw [if_neg hk, ih h.2]
      constructor
      · exact Or.inr
      · rintro (⟨hk', _⟩ | hv)
        · exact absurd hk'.symm hk
        · exact hv

theorem mem_of_lookup {fs : List (Text × α)} {k : Text} {v : α}
    (h : lookup k fs = some v) : (k, v) ∈ fs := by
  induction fs with
  | nil => cases h
  | cons f fs ih =>
    rw [lookup] at h
    by_cases hk : f.1 = k
    · rw [if_pos hk] at h
      cases h
      rw [← hk]
      exact List.mem_cons_self
    · rw [if_neg hk] at h
      exact List.mem_cons_of_mem _ (ih h)

/-- A lookup does not see the order of the fields. -/
theorem lookup_perm {fs gs : List (Text × α)} (h : fs.Perm gs) (hd : (keys fs).Nodup)
    (k : Text) : lookup k fs = lookup k gs := by
  have hd' : (keys gs).Nodup := (h.map Prod.fst).nodup_iff.mp hd
  apply Option.ext
  intro v
  rw [lookup_eq_some_iff hd, lookup_eq_some_iff hd', h.mem_iff]

/-- Two lists of fields with related values at the same keys, in the same order. -/
abbrev SameKeys (R : α → β → Prop) (fs : List (Text × α)) (gs : List (Text × β)) : Prop :=
  List.Forall₂ (fun f g => f.1 = g.1 ∧ R f.2 g.2) fs gs

theorem sameKeys_orderedInsert {R : α → β → Prop} {f : Text × α} {g : Text × β}
    {fs : List (Text × α)} {gs : List (Text × β)} (hf : f.1 = g.1 ∧ R f.2 g.2)
    (h : SameKeys R fs gs) :
    SameKeys R (fs.orderedInsert (fun a b => textLe a.1 b.1 = true) f)
      (gs.orderedInsert (fun a b => textLe a.1 b.1 = true) g) := by
  induction h with
  | nil => simpa using hf
  | @cons a b fs gs hab h ih =>
    obtain ⟨k, v⟩ := f
    obtain ⟨k', w⟩ := g
    obtain ⟨l, x⟩ := a
    obtain ⟨l', y⟩ := b
    obtain ⟨rfl, hr⟩ : k = k' ∧ R v w := hf
    obtain ⟨rfl, hr'⟩ : l = l' ∧ R x y := hab
    simp only [List.orderedInsert]
    split
    · exact .cons ⟨rfl, hr⟩ (.cons ⟨rfl, hr'⟩ h)
    · exact .cons ⟨rfl, hr'⟩ ih

/-- Sorting sees only the keys. -/
theorem sameKeys_sortByKey {R : α → β → Prop} {fs : List (Text × α)} {gs : List (Text × β)}
    (h : SameKeys R fs gs) : SameKeys R (sortByKey fs) (sortByKey gs) := by
  induction h with
  | nil => exact .nil
  | cons hab _ ih => exact sameKeys_orderedInsert hab ih

theorem keys_of_sameKeys {R : α → β → Prop} {fs : List (Text × α)} {gs : List (Text × β)}
    (h : SameKeys R fs gs) : keys fs = keys gs := by
  induction h with
  | nil => rfl
  | cons hab _ ih => simpa [keys] using ⟨hab.1, ih⟩

end Fields

/-! ## Objects with distinct keys -/

mutual
/-- Every object in the value has distinct keys, as an object of JavaScript has. -/
def Value.Distinct : Value → Prop
  | .arr items => distinctItems items
  | .obj fields => (keys fields).Nodup ∧ distinctFields fields
  | _ => True
def distinctItems : List Value → Prop
  | [] => True
  | v :: vs => v.Distinct ∧ distinctItems vs
def distinctFields : List (Text × Value) → Prop
  | [] => True
  | (_, v) :: fs => v.Distinct ∧ distinctFields fs
end

mutual
/-- The value with the undefined fields left out and all keys sorted: two
values with the same `canon` differ in nothing that JSON can carry but order. -/
def canon : Value → Value
  | .arr items => .arr (canonItems items)
  | .obj fields => .obj (sortByKey (canonFields fields))
  | .undefined => .undefined
  | .null => .null
  | .bool b => .bool b
  | .num n => .num n
  | .str t => .str t
def canonItems : List Value → List Value
  | [] => []
  | v :: vs => canon v :: canonItems vs
def canonFields : List (Text × Value) → List (Text × Value)
  | [] => []
  | (_, .undefined) :: fs => canonFields fs
  | (k, v) :: fs => (k, canon v) :: canonFields fs
end

/-! ## Literals -/

def Value.int (z : ℤ) : Value := .num (.fin z)

def Value.text (s : String) : Value := .str (js s)

/-- The fields of an object literal. -/
def named (fs : List (String × Value)) : List (Text × Value) := fs.map fun f => (js f.1, f.2)

theorem keys_named (fs : List (String × Value)) : keys (named fs) = (fs.map Prod.fst).map js := by
  simp [keys, named]

/-! ## Reading a property -/

/-- The own enumerable properties of a value, as `Object.entries` lists them. -/
def Value.entries : Value → List (Text × Value)
  | .obj fields => fields
  | .arr items => items.mapIdx fun i v => (decimal i, v)
  | .str t => t.mapIdx fun i u => (decimal i, .str [u])
  | _ => []

/-- `v.k` on a value that is neither null nor undefined; absent means undefined. -/
def Value.get (v : Value) (k : Text) : Value :=
  match v with
  | .arr items => if k = js "length" then .num (.fin items.length) else
      (lookup k v.entries).getD .undefined
  | .str t => if k = js "length" then .num (.fin t.length) else
      (lookup k v.entries).getD .undefined
  | _ => (lookup k v.entries).getD .undefined

@[simp] theorem Value.get_obj (fs : List (Text × Value)) (k : Text) :
    (Value.obj fs).get k = (lookup k fs).getD .undefined := rfl

theorem lookup_eq_none_of_not_mem {α : Type} {fs : List (Text × α)} {k : Text} (h : k ∉ keys fs) :
    lookup k fs = none := by
  induction fs with
  | nil => rfl
  | cons f fs ih =>
    simp only [keys, List.map_cons, List.mem_cons, not_or] at h
    rw [lookup, if_neg (Ne.symm h.1)]
    exact ih h.2

theorem keys_canonFields_sublist (fs : List (Text × Value)) :
    (keys (canonFields fs)).Sublist (keys fs) := by
  induction fs with
  | nil => exact .slnil
  | cons f fs ih =>
    obtain ⟨k, v⟩ := f
    cases v with
    | undefined => exact .cons _ ih
    | _ => exact .cons_cons _ ih

theorem canonFields_cons {k : Text} {v : Value} (hv : v ≠ .undefined)
    (fs : List (Text × Value)) :
    canonFields ((k, v) :: fs) = (k, canon v) :: canonFields fs := by
  cases v with
  | undefined => exact absurd rfl hv
  | _ => rfl

theorem lookup_canonFields {fs : List (Text × Value)} (h : (keys fs).Nodup) (k : Text) :
    (lookup k (canonFields fs)).getD .undefined = canon ((lookup k fs).getD .undefined) := by
  induction fs with
  | nil => rfl
  | cons f fs ih =>
    obtain ⟨k', v⟩ := f
    obtain ⟨hk', hd⟩ : k' ∉ keys fs ∧ (keys fs).Nodup := by simpa [keys] using h
    by_cases hv : v = .undefined
    · subst hv
      rw [lookup]
      by_cases hk : k' = k
      · subst hk
        have hn : k' ∉ keys (canonFields fs) := fun hm =>
          hk' ((keys_canonFields_sublist fs).subset hm)
        rw [if_pos rfl]
        change (lookup k' (canonFields fs)).getD .undefined = _
        rw [lookup_eq_none_of_not_mem hn]
        rfl
      · rw [if_neg hk]
        exact ih hd
    · rw [canonFields_cons hv, lookup, lookup]
      by_cases hk : k' = k
      · simp [hk]
      · rw [if_neg hk, if_neg hk]
        exact ih hd

/-- A property of the normal form is the normal form of the property. -/
theorem canon_get {fs : List (Text × Value)} (h : (keys fs).Nodup) (k : Text) :
    (canon (.obj fs)).get k = canon ((Value.obj fs).get k) := by
  have hd : (keys (canonFields fs)).Nodup := (keys_canonFields_sublist fs).nodup h
  simp only [canon, Value.get_obj]
  rw [lookup_perm (sortByKey_perm _) (keys_sortByKey_nodup hd), lookup_canonFields h]

end Js
