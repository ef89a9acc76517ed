-- Merkle trees over the heads of the organisations (`lib/ledger/merkle.ts`), which split their
-- leaves at a power of two, and over the items of a batch signature (`lib/signatures/merkle.ts`),
-- which pair them level by level; an odd last node goes up unchanged.
import Klick.JournalRecovery
import Klick.Fields
import Klick.Base64
import Klick.HashTrees

open Js HashTrees

namespace Klick

section Hashes

variable (H : Sha256)

/-- What is hashed for a leaf. -/
def leafInput (text : Text) : Bytes := 0 :: utf8 text

/-- What is hashed for a node of two texts of hexadecimal digits. -/
def nodeInput (l r : Text) : Bytes := 1 :: (ofHex l ++ ofHex r)

def hashLeaf (text : Text) : Text := toHex (H.digest (leafInput text))

def hashNode (l r : Text) : Text := toHex (H.digest (nodeInput l r))

/-- What is hashed for a step. -/
def stepInput (a : Text) (s : Step Text) : Bytes :=
  match s.side with
  | .right => nodeInput a s.hash
  | .left => nodeInput s.hash a

/-- What is hashed along a path. -/
def pathInputs (leaf : Text) (path : List (Step Text)) : List Bytes :=
  (climbs (hashNode H) leaf path).map fun x => stepInput x.1 x.2

/-- What is hashed to hold a text and its path against a root over texts. -/
def heldAgainst (inputs : List Bytes) (texts : List Text) (text : Text) (path : List (Step Text)) :
    List Bytes :=
  inputs ++ ((text :: texts).map leafInput ++ pathInputs H (hashLeaf H text) path)

end Hashes

/-! ## What a hash looks like -/

/-- A text the hash can give. -/
def IsHash (t : Text) : Prop := ∃ bs : Bytes, bs.length = 32 ∧ t = toHex bs

theorem ofHex_toHex (bs : Bytes) : ofHex (toHex bs) = bs := by
  induction bs with
  | nil => rfl
  | cons b bs ih =>
    have hb := b.toNat_lt
    have hhigh := hexValue_hexUnit (b.toNat / 16) (by omega)
    have hlow := hexValue_hexUnit (b.toNat % 16) (by omega)
    have hcons : toHex (b :: bs) =
        hexUnit (b.toNat / 16) :: hexUnit (b.toNat % 16) :: toHex bs := rfl
    rw [hcons, ofHex, hhigh, hlow]
    simp only
    rw [ih, byte_eq b (by omega)]

theorem isHash_digest (H : Sha256) (bs : Bytes) : IsHash (toHex (H.digest bs)) :=
  ⟨H.digest bs, H.size bs, rfl⟩

theorem isHash_hashNode (H : Sha256) (l r : Text) : IsHash (hashNode H l r) := isHash_digest H _

theorem IsHash.length {t : Text} (h : IsHash t) : (ofHex t).length = 32 := by
  obtain ⟨bs, hbs, rfl⟩ := h
  rwa [ofHex_toHex]

theorem IsHash.eq_of_ofHex {s t : Text} (hs : IsHash s) (ht : IsHash t) (h : ofHex s = ofHex t) :
    s = t := by
  obtain ⟨bs, -, rfl⟩ := hs
  obtain ⟨cs, -, rfl⟩ := ht
  rw [ofHex_toHex, ofHex_toHex] at h
  rw [h]

theorem digest_eq {H : Sha256} {as bs : Bytes} (h : toHex (H.digest as) = toHex (H.digest bs)) :
    H.digest as = H.digest bs := toHex_injective h

theorem apply_hashNode (H : Sha256) (a : Text) (s : Step Text) :
    s.apply (hashNode H) a = toHex (H.digest (stepInput a s)) := by
  unfold Step.apply stepInput hashNode
  cases s.side <;> rfl

/-- The half of a node is told by what was hashed, since the halves are of one length. -/
theorem half_of_stepInput {a l r : Text} {s : Step Text} (ha : IsHash a) (hl : IsHash l)
    (hr : IsHash r) (h : stepInput a s = nodeInput l r) :
    a = match s.side with
      | .right => l
      | .left => r := by
  unfold stepInput nodeInput at h
  cases hside : s.side with
  | right =>
    rw [hside] at h
    have happ := (List.cons.inj h).2
    apply ha.eq_of_ofHex hl
    exact (List.append_inj happ (by rw [ha.length, hl.length])).1
  | left =>
    rw [hside] at h
    have happ := (List.cons.inj h).2
    apply ha.eq_of_ofHex hr
    exact (List.append_inj' happ (by rw [ha.length, hr.length])).2

theorem leafInput_ne_stepInput {text a : Text} {s : Step Text} : leafInput text ≠ stepInput a s := by
  unfold leafInput stepInput nodeInput
  cases s.side <;> simp

/-- The values on a path from a hash are hashes. -/
theorem isHash_of_mem_climbs {H : Sha256} {leaf : Text} (hleaf : IsHash leaf)
    {path : List (Step Text)} {a : Text} {s : Step Text}
    (h : (a, s) ∈ climbs (hashNode H) leaf path) : IsHash a := by
  induction path generalizing leaf with
  | nil => cases h
  | cons t path ih =>
    rcases List.mem_cons.mp h with h | h
    · cases h
      exact hleaf
    · apply ih _ h
      rw [apply_hashNode]
      exact isHash_digest H _

/-- **A text whose path leads to a root is one of the texts of the root.** -/
theorem mem_of_climb {H : Sha256} {inputs : List Bytes} {texts : List Text} {root : Text}
    (hb : Built (hashNode H) {p | nodeInput p.1 p.2 ∈ inputs} (texts.map (hashLeaf H)) root)
    {text : Text} {path : List (Step Text)}
    (hinj : Set.InjOn H.digest {bs | bs ∈ heldAgainst H inputs texts text path})
    (hpaired : ∀ t ∈ text :: texts, Paired t)
    (hroot : climb (hashNode H) (hashLeaf H text) path = root) : text ∈ texts := by
  have hmemIn : ∀ {bs}, bs ∈ inputs → bs ∈ heldAgainst H inputs texts text path :=
    fun h => List.mem_append_left _ h
  have hmemLeaf : ∀ {t}, t ∈ text :: texts → leafInput t ∈ heldAgainst H inputs texts text path :=
    fun h => List.mem_append_right _ (List.mem_append_left _ (List.mem_map_of_mem h))
  have hmemStep : ∀ {a s}, (a, s) ∈ climbs (hashNode H) (hashLeaf H text) path →
      stepInput a s ∈ heldAgainst H inputs texts text path :=
    fun h => List.mem_append_right _ (List.mem_append_right _ (List.mem_map.mpr ⟨_, h, rfl⟩))
  have hhash := hb.with (isHash_hashNode H) fun v hv => by
    obtain ⟨t, -, rfl⟩ := List.mem_map.mp hv
    exact isHash_digest H _
  have hmem : hashLeaf H text ∈ texts.map (hashLeaf H) := by
    apply hhash.mem_of_climb _ _ _ hroot
    · intro l r hlr a s has heq
      obtain ⟨hin, hl, hr⟩ := hlr
      rw [apply_hashNode] at heq
      exact half_of_stepInput (isHash_of_mem_climbs (isHash_digest H _) has) hl hr
        (hinj (hmemStep has) (hmemIn hin) (digest_eq heq))
    · intro v hv a s has heq
      obtain ⟨t, ht, rfl⟩ := List.mem_map.mp hv
      rw [apply_hashNode] at heq
      exact leafInput_ne_stepInput (hinj (hmemStep has)
        (hmemLeaf (List.mem_cons_of_mem _ ht)) (digest_eq heq)).symm
    · intro l r hlr heq
      have hsame := hinj (hmemLeaf List.mem_cons_self) (hmemIn hlr.1) (digest_eq heq)
      cases hsame
  obtain ⟨t, ht, heq⟩ := List.mem_map.mp hmem
  have hsame := hinj (hmemLeaf (List.mem_cons_of_mem _ ht)) (hmemLeaf List.mem_cons_self)
    (digest_eq heq)
  have htext : t = text := utf8_injective (hpaired t (List.mem_cons_of_mem _ ht))
    (hpaired text List.mem_cons_self) (List.cons.inj hsame).2
  rwa [← htext]

/-! ## Fields before a bar -/

theorem cut_at_bar {a b s t : Text} (ha : FieldText a) (hb : FieldText b)
    (h : a ++ bar :: s = b ++ bar :: t) : a = b ∧ s = t := by
  induction a generalizing b with
  | nil =>
    cases b with
    | nil => exact ⟨rfl, (List.cons.inj h).2⟩
    | cons v b => exact absurd (List.cons.inj h).1.symm (hb v List.mem_cons_self).2
  | cons u a ih =>
    cases b with
    | nil => exact absurd (List.cons.inj h).1 (ha u List.mem_cons_self).2
    | cons v b =>
      obtain ⟨rfl, hrest⟩ := List.cons.inj h
      obtain ⟨rfl, hst⟩ := ih (fun w hw => ha w (List.mem_cons_of_mem _ hw))
        (fun w hw => hb w (List.mem_cons_of_mem _ hw)) hrest
      exact ⟨rfl, hst⟩

theorem paired_of_plain {t : Text} (h : FieldText t) : Paired t := by
  induction t with
  | nil => exact .nil
  | cons u t ih =>
    apply Paired.unit _ (ih fun v hv => h v (List.mem_cons_of_mem _ hv))
    have hu := (h u List.mem_cons_self).1
    simp only [isVisible, Bool.and_eq_true, decide_eq_true_eq] at hu
    simp only [isSurrogate, isHighSurrogate, isLowSurrogate]
    grind

/-! ## The heads of the organisations -/

namespace Ledger

/-- The loop of `split`, in as many turns as there are leaves. -/
def splitFrom (n : ℕ) : ℕ → ℕ → ℕ
  | 0, k => k
  | turns + 1, k => if k * 2 < n then splitFrom n turns (k * 2) else k

def split (n : ℕ) : ℕ := splitFrom n n 1

theorem splitFrom_bounds {n turns k : ℕ} (hk : 0 < k) (hlt : k < n) :
    0 < splitFrom n turns k ∧ splitFrom n turns k < n := by
  induction turns generalizing k with
  | zero => exact ⟨hk, hlt⟩
  | succ turns ih =>
    unfold splitFrom
    split_ifs with h
    · exact ih (by omega) h
    · exact ⟨hk, hlt⟩

/-- Both parts of two leaves or more have a leaf. -/
theorem split_bounds {n : ℕ} (h : 2 ≤ n) : 0 < split n ∧ split n < n :=
  splitFrom_bounds Nat.one_pos h

section Hashes

variable (H : Sha256)

def merkleRoot : List Text → Text
  | [] => toHex (H.digest [])
  | [leaf] => leaf
  | a :: b :: rest =>
    let leaves := a :: b :: rest
    let k := split leaves.length
    hashNode H (merkleRoot (leaves.take k)) (merkleRoot (leaves.drop k))
termination_by leaves => leaves.length
decreasing_by
  all_goals
    have hk := split_bounds (n := (a :: b :: rest).length) (by simp)
    simp only [List.length_take, List.length_drop]
    omega

/-- What is hashed for a root. -/
def rootInputs : List Text → List Bytes
  | [] => [[]]
  | [_] => []
  | a :: b :: rest =>
    let leaves := a :: b :: rest
    let k := split leaves.length
    nodeInput (merkleRoot H (leaves.take k)) (merkleRoot H (leaves.drop k)) ::
      (rootInputs (leaves.take k) ++ rootInputs (leaves.drop k))
termination_by leaves => leaves.length
decreasing_by
  all_goals
    have hk := split_bounds (n := (a :: b :: rest).length) (by simp)
    simp only [List.length_take, List.length_drop]
    omega

/-- The path of an index within the list. -/
def pathOf : List Text → ℕ → List (Step Text)
  | [], _ => []
  | [_], _ => []
  | a :: b :: rest, index =>
    let leaves := a :: b :: rest
    let k := split leaves.length
    if index < k then pathOf (leaves.take k) index ++ [⟨.right, merkleRoot H (leaves.drop k)⟩]
    else pathOf (leaves.drop k) (index - k) ++ [⟨.left, merkleRoot H (leaves.take k)⟩]
termination_by leaves => leaves.length
decreasing_by
  all_goals
    have hk := split_bounds (n := (a :: b :: rest).length) (by simp)
    simp only [List.length_take, List.length_drop]
    omega

/-- An index beyond the list throws. -/
def merklePath (leaves : List Text) (index : ℕ) : Option (List (Step Text)) :=
  if index < leaves.length then some (pathOf H leaves index) else none

def rootFromPath (leaf : Text) (path : List (Step Text)) : Text := climb (hashNode H) leaf path

/-- Each leaf is at the beginning of its path. -/
theorem climb_pathOf {leaves : List Text} {index : ℕ} {leaf : Text}
    (h : leaves[index]? = some leaf) :
    climb (hashNode H) leaf (pathOf H leaves index) = merkleRoot H leaves := by
  induction leaves, index using pathOf.induct generalizing leaf with
  | case1 => cases h
  | case2 a index =>
    rw [pathOf, merkleRoot]
    cases index with
    | zero =>
      cases h
      rfl
    | succ index => cases h
  | case3 a b rest index leaves k hlt =>
    rename_i ih
    rw [pathOf, merkleRoot, if_pos hlt, climb_concat, ih]
    · rfl
    · rwa [List.getElem?_take_of_lt hlt]
  | case4 a b rest index leaves k hlt =>
    rename_i ih
    rw [pathOf, merkleRoot, if_neg hlt, climb_concat, ih]
    · rfl
    · rw [List.getElem?_drop, Nat.add_sub_cancel' (Nat.le_of_not_lt hlt)]
      exact h

/-- A root is hashed from its leaves, with what is hashed for it. -/
theorem built_merkleRoot {leaves : List Text} (h : leaves ≠ []) :
    Built (hashNode H) {p | nodeInput p.1 p.2 ∈ rootInputs H leaves} leaves (merkleRoot H leaves) := by
  induction leaves using merkleRoot.induct with
  | case1 => exact absurd rfl h
  | case2 leaf =>
    rw [merkleRoot]
    exact .leaf leaf
  | case3 a b rest leaves k ihl ihr =>
    have hk : 0 < k ∧ k < leaves.length := split_bounds (by simp [leaves])
    have hl : leaves.take k ≠ [] := by
      rw [← List.length_pos_iff, List.length_take]
      omega
    have hr : leaves.drop k ≠ [] := by
      rw [← List.length_pos_iff, List.length_drop]
      omega
    rw [merkleRoot, rootInputs]
    have hnode : Built (hashNode H) {p | nodeInput p.1 p.2 ∈
        nodeInput (merkleRoot H (leaves.take k)) (merkleRoot H (leaves.drop k)) ::
          (rootInputs H (leaves.take k) ++ rootInputs H (leaves.drop k))}
        (leaves.take k ++ leaves.drop k)
        (hashNode H (merkleRoot H (leaves.take k)) (merkleRoot H (leaves.drop k))) := by
      apply Built.node
      · exact List.mem_cons_self
      · exact (ihl hl).mono fun p hp => List.mem_cons_of_mem _ (List.mem_append_left _ hp)
      · exact (ihr hr).mono fun p hp => List.mem_cons_of_mem _ (List.mem_append_right _ hp)
    rwa [List.take_append_drop] at hnode

end Hashes

theorem fieldText_version : FieldText (js "klick-ledger/v1") := fieldText_of_all (by decide)

/-- What is hashed for no leaves is not hashed along a path from a leaf. -/
theorem climb_ne_empty {H : Sha256} {text : Text} {path : List (Step Text)}
    (hinj : Set.InjOn H.digest {bs | bs ∈ heldAgainst H (rootInputs H []) [] text path}) :
    rootFromPath H (hashLeaf H text) path ≠ merkleRoot H [] := by
  have hempty : [] ∈ heldAgainst H (rootInputs H []) [] text path := by
    rw [rootInputs]
    exact List.mem_append_left _ List.mem_cons_self
  intro hroot
  unfold rootFromPath at hroot
  rw [merkleRoot] at hroot
  rcases List.eq_nil_or_concat' path with rfl | ⟨path, s, rfl⟩
  · have hleaf : leafInput text ∈ heldAgainst H (rootInputs H []) [] text [] := by
      exact List.mem_append_right _ List.mem_cons_self
    cases hinj hleaf hempty (digest_eq hroot)
  · rw [climb_concat, apply_hashNode] at hroot
    have hstep : stepInput (climb (hashNode H) (hashLeaf H text) path) s ∈
        heldAgainst H (rootInputs H []) [] text (path ++ [s]) := by
      apply List.mem_append_right
      apply List.mem_append_right
      rw [pathInputs, climbs_concat, List.map_append]
      exact List.mem_append_right _ List.mem_cons_self
    have hsame := hinj hstep hempty (digest_eq hroot)
    unfold stepInput nodeInput at hsame
    cases hside : s.side <;> rw [hside] at hsame <;> cases hsame

/-- A leaf: the last entry of the chain of an organisation (or of the platform), the number of its
entries and its hash. -/
structure LedgerLeaf where
  orgId : Text
  seq : Text
  count : ℕ
  head : Text
  orgId_plain : FieldText orgId
  seq_plain : FieldText seq
  head_paired : Paired head

def leafText (l : LedgerLeaf) : Text :=
  js "klick-ledger/v1" ++ bar :: (l.orgId ++ bar :: (l.seq ++ bar :: (decimal l.count ++
    bar :: l.head)))

def leafHash (H : Sha256) (l : LedgerLeaf) : Text := hashLeaf H (leafText l)

theorem leafText_injective {l m : LedgerLeaf} (h : leafText l = leafText m) : l = m := by
  unfold leafText at h
  have hrest := (List.cons.inj (List.append_cancel_left h)).2
  obtain ⟨horg, hrest⟩ := cut_at_bar l.orgId_plain m.orgId_plain hrest
  obtain ⟨hseq, hrest⟩ := cut_at_bar l.seq_plain m.seq_plain hrest
  obtain ⟨hcount, hhead⟩ := cut_at_bar (fieldText_decimal _) (fieldText_decimal _) hrest
  have hcount := decimal_injective hcount
  cases l
  cases m
  subst horg hseq hcount hhead
  rfl

theorem paired_leafText (l : LedgerLeaf) : Paired (leafText l) := by
  have hbar : ∀ {t : Text}, Paired t → Paired (bar :: t) := fun h => .unit (by decide) h
  unfold leafText
  apply Paired.append (paired_of_plain fieldText_version) (hbar _)
  apply (paired_of_plain l.orgId_plain).append (hbar _)
  apply (paired_of_plain l.seq_plain).append (hbar _)
  exact (paired_of_plain (fieldText_decimal _)).append (hbar l.head_paired)

/-- **A head whose path leads to the root of a list is a head of the list.** -/
theorem mem_of_rootFromPath {H : Sha256} {leaves : List LedgerLeaf} {l : LedgerLeaf}
    {path : List (Step Text)}
    (hinj : Set.InjOn H.digest {bs | bs ∈ heldAgainst H (rootInputs H (leaves.map (leafHash H)))
      (leaves.map leafText) (leafText l) path})
    (hroot : rootFromPath H (leafHash H l) path = merkleRoot H (leaves.map (leafHash H))) :
    l ∈ leaves := by
  have hhashes : leaves.map (leafHash H) = (leaves.map leafText).map (hashLeaf H) := by
    rw [List.map_map]
    rfl
  have hpaired : ∀ t ∈ leafText l :: leaves.map leafText, Paired t := by
    intro t ht
    rcases List.mem_cons.mp ht with rfl | ht
    · exact paired_leafText l
    · obtain ⟨m, -, rfl⟩ := List.mem_map.mp ht
      exact paired_leafText m
  rcases eq_or_ne leaves [] with rfl | hne
  · exact absurd hroot (climb_ne_empty hinj)
  · have hne' : leaves.map (leafHash H) ≠ [] := by simpa using hne
    have hb := built_merkleRoot H hne'
    have hb' : Built (hashNode H) {p | nodeInput p.1 p.2 ∈ rootInputs H (leaves.map (leafHash H))}
        ((leaves.map leafText).map (hashLeaf H)) (merkleRoot H (leaves.map (leafHash H))) := by
      rwa [← hhashes]
    obtain ⟨m, hm, heq⟩ := List.mem_map.mp (mem_of_climb hb' hinj hpaired hroot)
    rwa [← leafText_injective heq]

end Ledger

/-! ## The items of a batch signature -/

namespace Signatures

section Hashes

variable (H : Sha256)

def merkleLeaf (evidenceId sha256 : Text) : Text := hashLeaf H (evidenceId ++ bar :: sha256)

/-- The inner loop of `levels`: an odd last node goes up unchanged. -/
def nextLevel : List Text → List Text
  | a :: b :: cur => hashNode H a b :: nextLevel cur
  | cur => cur

theorem nextLevel_length : ∀ cur : List Text, (nextLevel H cur).length = (cur.length + 1) / 2
  | [] => rfl
  | [_] => by simp [nextLevel]
  | a :: b :: cur => by
    rw [nextLevel, List.length_cons, nextLevel_length cur, List.length_cons, List.length_cons]
    omega

/-- The outer loop of `levels`. -/
def levelsFrom (cur : List Text) : List (List Text) :=
  if 1 < cur.length then cur :: levelsFrom (nextLevel H cur) else [cur]
termination_by cur.length
decreasing_by
  rw [nextLevel_length]
  omega

/-- No leaves throw. -/
def levels (leaves : List Text) : Option (List (List Text)) :=
  if leaves = [] then none else some (levelsFrom H leaves)

def merkleRoot (leaves : List Text) : Option Text :=
  (levels H leaves).map fun out => ((out.getLast?).bind fun top => top[0]?).getD []

/-- What a turn of `merkleProof` pushes: an odd last node has no sibling. -/
def turn (i : ℕ) (level : List Text) : List (Step Text) :=
  let sibling := if i % 2 = 0 then i + 1 else i - 1
  let side := if i % 2 = 0 then Side.right else Side.left
  if sibling < level.length then [⟨side, level[sibling]?.getD []⟩] else []

/-- The loop of `merkleProof`. -/
def proofFrom : ℕ → List (List Text) → List (Step Text)
  | _, [] => []
  | i, level :: rest => turn i level ++ proofFrom (i / 2) rest

def merkleProof (leaves : List Text) (index : ℕ) : Option (List (Step Text)) :=
  (levels H leaves).map fun out => proofFrom index out.dropLast

def verifyMerkleProof (leaf : Text) (proof : List (Step Text)) (root : Text) : Bool :=
  climb (hashNode H) leaf proof = root

/-- What is hashed for the next level. -/
def levelInputs : List Text → List Bytes
  | a :: b :: cur => nodeInput a b :: levelInputs cur
  | _ => []

/-- What is hashed for a root. -/
def rootInputs (leaves : List Text) : List Bytes := (levelsFrom H leaves).flatMap levelInputs

theorem levelsFrom_ne_nil (cur : List Text) : levelsFrom H cur ≠ [] := by
  rw [levelsFrom]
  split_ifs <;> simp

theorem turn_add_two (a b : Text) (cur : List Text) (i : ℕ) :
    turn (i + 2) (a :: b :: cur) = turn i cur := by
  have hparity : (i + 2) % 2 = i % 2 := by omega
  unfold turn
  rw [hparity]
  by_cases heven : i % 2 = 0
  · simp only [if_pos heven, List.length_cons]
    by_cases hlt : i + 1 < cur.length
    · rw [if_pos hlt, if_pos (by omega)]
      rfl
    · rw [if_neg hlt, if_neg (by omega)]
  · obtain ⟨k, rfl⟩ : ∃ k, i = k + 1 := ⟨i - 1, by omega⟩
    simp only [if_neg heven, List.length_cons]
    by_cases hlt : k + 1 - 1 < cur.length
    · rw [if_pos hlt, if_pos (by omega)]
      rfl
    · rw [if_neg hlt, if_neg (by omega)]

/-- A turn leads to the node above. -/
theorem climb_turn {cur : List Text} {i : ℕ} {leaf : Text} (h : cur[i]? = some leaf) :
    (nextLevel H cur)[i / 2]? = some (climb (hashNode H) leaf (turn i cur)) := by
  induction cur using nextLevel.induct generalizing i with
  | case1 a b cur ih =>
    rw [nextLevel]
    rcases i with - | - | i
    · cases h
      rfl
    · cases h
      rfl
    · have hhalf : (i + 2) / 2 = i / 2 + 1 := by omega
      rw [turn_add_two, hhalf]
      exact ih h
  | case2 cur hcur =>
    rcases cur with - | ⟨a, - | ⟨b, cur⟩⟩
    · cases h
    · cases i with
      | zero =>
        cases h
        rfl
      | succ i => cases h
    · exact absurd rfl (hcur a b cur)

/-- Each leaf is at the beginning of its proof. -/
theorem climb_proofFrom {cur : List Text} {i : ℕ} {leaf : Text} (h : cur[i]? = some leaf) :
    (levelsFrom H cur).getLast? =
      some [climb (hashNode H) leaf (proofFrom i (levelsFrom H cur).dropLast)] := by
  induction cur using levelsFrom.induct H generalizing i leaf with
  | case1 cur hlt ih =>
    obtain ⟨top, rest, heq⟩ := List.exists_cons_of_ne_nil (levelsFrom_ne_nil H (nextLevel H cur))
    have hnext := ih (climb_turn H h)
    rw [levelsFrom, if_pos hlt]
    rw [heq] at hnext ⊢
    rw [List.getLast?_cons_cons, List.dropLast_cons_cons, proofFrom, climb_append]
    exact hnext
  | case2 cur hlt =>
    rw [levelsFrom, if_neg hlt]
    obtain ⟨hi, -⟩ := List.getElem?_eq_some_iff.mp h
    obtain ⟨a, rfl⟩ := List.length_eq_one_iff.mp (by omega : cur.length = 1)
    obtain rfl : i = 0 := by
      rw [List.length_singleton] at hi
      omega
    cases h
    rfl

/-- The parts of the next level, each below its node. -/
theorem built_nextLevel {inputs : List Bytes} {parts : List (List Text)} {cur : List Text}
    (hb : List.Forall₂ (Built (hashNode H) {p | nodeInput p.1 p.2 ∈ inputs}) parts cur)
    (hin : levelInputs cur ⊆ inputs) :
    ∃ merged, merged.flatten = parts.flatten ∧
      List.Forall₂ (Built (hashNode H) {p | nodeInput p.1 p.2 ∈ inputs}) merged (nextLevel H cur) := by
  induction cur using nextLevel.induct generalizing parts with
  | case1 a b cur ih =>
    rcases hb with - | ⟨ha, hb⟩
    rcases hb with - | ⟨hb, hrest⟩
    rw [levelInputs] at hin
    obtain ⟨merged, hflat, hmerged⟩ := ih hrest fun x hx => hin (List.mem_cons_of_mem _ hx)
    rw [nextLevel]
    refine ⟨_ :: merged, ?_, .cons (.node (hin List.mem_cons_self) ha hb) hmerged⟩
    simp [hflat]
  | case2 cur hcur =>
    rcases cur with - | ⟨a, - | ⟨b, cur⟩⟩
    · exact ⟨parts, rfl, hb⟩
    · exact ⟨parts, rfl, hb⟩
    · exact absurd rfl (hcur a b cur)

/-- The top level is one root, hashed from all the leaves below. -/
theorem built_levelsFrom {inputs : List Bytes} {parts : List (List Text)} {cur : List Text}
    (hb : List.Forall₂ (Built (hashNode H) {p | nodeInput p.1 p.2 ∈ inputs}) parts cur)
    (hin : rootInputs H cur ⊆ inputs) (hne : cur ≠ []) :
    ∃ root, (levelsFrom H cur).getLast? = some [root] ∧
      Built (hashNode H) {p | nodeInput p.1 p.2 ∈ inputs} parts.flatten root := by
  induction cur using levelsFrom.induct H generalizing parts with
  | case1 cur hlt ih =>
    rw [rootInputs, levelsFrom, if_pos hlt, List.flatMap_cons] at hin
    obtain ⟨merged, hflat, hmerged⟩ := built_nextLevel H hb
      fun x hx => hin (List.mem_append_left _ hx)
    have hlen := nextLevel_length H cur
    obtain ⟨root, hlast, hroot⟩ := ih hmerged (fun x hx => hin (List.mem_append_right _ hx))
      (by rw [← List.length_pos_iff]; omega)
    obtain ⟨top, rest, heq⟩ := List.exists_cons_of_ne_nil (levelsFrom_ne_nil H (nextLevel H cur))
    refine ⟨root, ?_, hflat ▸ hroot⟩
    rw [levelsFrom, if_pos hlt]
    rw [heq] at hlast ⊢
    rwa [List.getLast?_cons_cons]
  | case2 cur hlt =>
    have hpos := List.length_pos_iff.mpr hne
    obtain ⟨a, rfl⟩ := List.length_eq_one_iff.mp (by omega : cur.length = 1)
    rcases hb with - | ⟨ha, hnil⟩
    cases hnil
    refine ⟨a, by rw [levelsFrom, if_neg hlt]; rfl, ?_⟩
    simpa using ha

theorem built_merkleRoot {leaves : List Text} {root : Text} (h : merkleRoot H leaves = some root) :
    Built (hashNode H) {p | nodeInput p.1 p.2 ∈ rootInputs H leaves} leaves root := by
  unfold merkleRoot levels at h
  by_cases hne : leaves = []
  · rw [if_pos hne] at h
    cases h
  · rw [if_neg hne] at h
    have hsingle : List.Forall₂ (Built (hashNode H) {p | nodeInput p.1 p.2 ∈ rootInputs H leaves})
        (leaves.map fun v => [v]) leaves := by
      rw [List.forall₂_map_left_iff]
      exact List.forall₂_same.mpr fun v _ => .leaf v
    obtain ⟨top, hlast, hroot⟩ := built_levelsFrom H hsingle (fun _ hx => hx) hne
    have heq : top = root := by
      rw [Option.map_some, hlast] at h
      exact Option.some.inj h
    have hflat : (leaves.map fun v => [v]).flatten = leaves := List.flatMap_singleton' leaves
    rwa [heq, hflat] at hroot

/-- **Each leaf of a batch verifies against its root with its proof.** -/
theorem verify_merkleProof {leaves : List Text} {i : ℕ} {leaf : Text} (h : leaves[i]? = some leaf) :
    ∃ proof root, merkleProof H leaves i = some proof ∧ merkleRoot H leaves = some root ∧
      verifyMerkleProof H leaf proof root = true := by
  have hne : leaves ≠ [] := by
    rintro rfl
    cases h
  refine ⟨proofFrom i (levelsFrom H leaves).dropLast, _, ?_, ?_, decide_eq_true rfl⟩
  · unfold merkleProof levels
    rw [if_neg hne]
    rfl
  · unfold merkleRoot levels
    rw [if_neg hne, Option.map_some, climb_proofFrom H h]
    rfl

end Hashes

/-- **An item whose path leads to the root of a batch is an item of it.** -/
theorem mem_of_verifyMerkleProof {H : Sha256} {texts : List Text} {text root : Text}
    {path : List (Step Text)} (hroot : merkleRoot H (texts.map (hashLeaf H)) = some root)
    (hinj : Set.InjOn H.digest {bs | bs ∈ heldAgainst H (rootInputs H (texts.map (hashLeaf H)))
      texts text path})
    (hpaired : ∀ t ∈ text :: texts, Paired t)
    (hverify : verifyMerkleProof H (hashLeaf H text) path root = true) : text ∈ texts :=
  mem_of_climb (built_merkleRoot H hroot) hinj hpaired (of_decide_eq_true hverify)

end Signatures

end Klick
