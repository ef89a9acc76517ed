-- Signatures under one piece of evidence or a batch of them (`lib/signatures/service.ts`), and the
-- text that is signed (`lib/signatures/canonical.ts`). The query compares ids as the database does,
-- which takes capital digits for small ones, and the code as texts.
import Klick.LowerCase
import Klick.Merkle

open Js HashTrees

namespace Klick.Signatures

/-! ## The signed text -/

structure SignFields where
  org : Text
  target : Text
  hash : Text
  signer : Text
  function : Text
  purpose : Text
  nonce : Text
  expires : Text
deriving DecidableEq

/-- A kind and an id, as the pattern of `target` reads them. -/
def isTarget (t : Text) : Bool :=
  [js "evidence:", js "batch:", js "docver:"].any fun kind =>
    t.take kind.length = kind && isUuid (t.drop kind.length)

/-- `/^(-|[a-z][a-z_]{1,39}|role:<uuid>)$/` -/
def isFunction (t : Text) : Bool :=
  t = noField ||
    (match t with
      | [] => false
      | u :: rest => isLower u && 1 ≤ rest.length && rest.length ≤ 39 &&
          rest.all fun v => isLower v || v = ch '_') ||
    (t.take 5 = js "role:" && isUuid (t.drop 5))
where
  isLower (u : UInt16) : Bool := 97 ≤ u.toNat && u.toNat ≤ 122

def signPurposes : List Text := [js "approve", js "acknowledge", js "review"]

/-- A text of digits where the shape has a zero, and of the shape's own units elsewhere. -/
def hasShape (shape t : Text) : Bool :=
  t.length = shape.length &&
    (t.zip shape).all fun x => if x.2 = ch '0' then isDigit x.1 else x.1 = x.2

/-- `PATTERNS` -/
def SignFields.fit (f : SignFields) : Bool :=
  isUuid f.org && isTarget f.target && isHex 64 f.hash && isUuid f.signer &&
    isFunction f.function && signPurposes.contains f.purpose && isHex 32 f.nonce &&
    hasShape (js "0000-00-00T00:00:00Z") f.expires

def SignFields.text (f : SignFields) : Text :=
  join bar [js "klick-sign/v1", f.org, f.target, f.hash, f.signer, f.function, f.purpose, f.nonce,
    f.expires]

/-- A field that does not fit throws. -/
def encodeSignText (f : SignFields) : Option Text := if f.fit then some f.text else none

def parseSignText (text : Text) : Option SignFields :=
  match text.splitOn bar with
  | [version, org, target, hash, signer, function, purpose, nonce, expires] =>
    let f : SignFields := ⟨org, target, hash, signer, function, purpose, nonce, expires⟩
    if version = js "klick-sign/v1" && f.fit then
      if encodeSignText f = some text then some f else none
    else none
  | _ => none

theorem fieldText_of_isTarget {t : Text} (h : isTarget t = true) : FieldText t := by
  unfold isTarget at h
  simp only [List.any_eq_true, Bool.and_eq_true, decide_eq_true_eq] at h
  obtain ⟨kind, hkind, hhead, hid⟩ := h
  have hplain : ∀ k ∈ [js "evidence:", js "batch:", js "docver:"], FieldText k := by
    intro k hk
    apply fieldText_of_all
    revert k
    decide
  rw [← List.take_append_drop kind.length t, hhead]
  exact (hplain kind hkind).append (fieldText_of_isUuid hid)

theorem fieldText_of_lower {t : Text} (h : ∀ u ∈ t, isFunction.isLower u = true ∨ u = ch '_') :
    FieldText t := by
  intro u hu
  rcases h u hu with hlow | rfl
  · simp only [isFunction.isLower, Bool.and_eq_true, decide_eq_true_eq] at hlow
    refine ⟨?_, ?_⟩
    · simp only [isVisible, Bool.and_eq_true, decide_eq_true_eq]
      omega
    · rintro rfl
      exact absurd hlow.2 (by decide)
  · decide

theorem fieldText_of_isFunction {t : Text} (h : isFunction t = true) : FieldText t := by
  unfold isFunction at h
  simp only [Bool.or_eq_true, Bool.and_eq_true, decide_eq_true_eq] at h
  rcases h with (rfl | h) | ⟨hhead, hid⟩
  · exact fieldText_of_all (by decide)
  · cases t with
    | nil => cases h
    | cons u rest =>
      simp only [Bool.and_eq_true, List.all_eq_true, Bool.or_eq_true, decide_eq_true_eq] at h
      apply fieldText_of_lower
      intro v hv
      rcases List.mem_cons.mp hv with rfl | hv
      · exact Or.inl h.1.1.1
      · exact h.2 v hv
  · rw [← List.take_append_drop 5 t, hhead]
    exact FieldText.append (fieldText_of_all (by decide)) (fieldText_of_isUuid hid)

theorem fieldText_of_hasShape {shape t : Text} (hshape : FieldText shape)
    (h : hasShape shape t = true) : FieldText t := by
  unfold hasShape at h
  simp only [Bool.and_eq_true, decide_eq_true_eq, List.all_eq_true] at h
  obtain ⟨hlen, hunits⟩ := h
  intro u hu
  obtain ⟨n, hn, rfl⟩ := List.getElem_of_mem hu
  have hn' : n < shape.length := hlen ▸ hn
  have hzip : n < (t.zip shape).length := by
    rw [List.length_zip]
    omega
  have hmem : (t[n], shape[n]) ∈ t.zip shape := by
    rw [← List.getElem_zip (h := hzip)]
    exact List.getElem_mem _
  have hunit := hunits _ hmem
  split_ifs at hunit with hzero
  · exact fieldText_of_digits (t := [t[n]]) (by simpa using hunit) _ List.mem_cons_self
  · have hsame : t[n] = shape[n] := of_decide_eq_true hunit
    rw [hsame]
    exact hshape _ (List.getElem_mem _)

/-- **The signed text reads back as its fields.** -/
theorem parseSignText_text {f : SignFields} (h : f.fit = true) : parseSignText f.text = some f := by
  have hfit := h
  unfold SignFields.fit at hfit
  simp only [Bool.and_eq_true] at hfit
  obtain ⟨⟨⟨⟨⟨⟨⟨horg, htarget⟩, hhash⟩, hsigner⟩, hfunction⟩, hpurpose⟩, hnonce⟩, hexpires⟩ := hfit
  have hplain : ∀ t ∈ [js "klick-sign/v1", f.org, f.target, f.hash, f.signer, f.function, f.purpose,
      f.nonce, f.expires], FieldText t := by
    have hpurposes : ∀ p ∈ signPurposes, FieldText p := by
      intro p hp
      apply fieldText_of_all
      revert p
      decide
    simp only [List.forall_mem_cons, List.not_mem_nil, false_implies, implies_true, and_true]
    exact ⟨fieldText_of_all (by decide), fieldText_of_isUuid horg, fieldText_of_isTarget htarget,
      fieldText_of_isHex hhash, fieldText_of_isUuid hsigner, fieldText_of_isFunction hfunction,
      hpurposes _ (List.contains_iff_mem.mp hpurpose), fieldText_of_isHex hnonce,
      fieldText_of_hasShape (fieldText_of_all (by decide)) hexpires⟩
  have hsplit := splitOn_join (List.cons_ne_nil _ _) hplain
  unfold parseSignText
  rw [SignFields.text, hsplit]
  simp [h, encodeSignText, SignFields.text]

/-! ## The evidence that is signed -/

/-- A row of `evidence`. -/
structure EvidenceRow where
  id : Text
  organizationId : Text
  sha256 : Option Text
  supersededAt : Option ℤ
deriving DecidableEq

/-- A column of type `uuid` gives its value back in small digits. -/
def uuidColumn (t : Text) : Text := lowerAscii t

/-- The rows of `evidence`; no two have one id. -/
structure EvidenceTable where
  rows : List EvidenceRow
  ids_nodup : (rows.map fun r => uuidColumn r.id).Nodup

structure Item where
  id : Text
  sha256 : Text
deriving DecidableEq

/-- What is hashed for an item. -/
def Item.text (i : Item) : Text := i.id ++ bar :: i.sha256

def Item.leaf (H : Sha256) (i : Item) : Text := merkleLeaf H i.id i.sha256

/-- The item of a row of signatures, which has a column of type `uuid` for the id. -/
def Item.kept (i : Item) : Item := ⟨uuidColumn i.id, i.sha256⟩

structure Target where
  target : Text
  hash : Text
  items : List Item

/-- The rows the query selects. -/
def selectEvidence (db : EvidenceTable) (orgId : Text) (ids : List Text) : List EvidenceRow :=
  db.rows.filter fun r => uuidColumn r.organizationId = uuidColumn orgId &&
    ids.any (fun id => uuidColumn r.id = uuidColumn id) && r.supersededAt.isNone

/-- The ids without repetition and in order. -/
def sortedIds (evidenceIds : List Text) : List Text :=
  evidenceIds.dedup.insertionSort fun a b => textLe a b = true

/-- The items of the rows that were found, by the texts of their ids. -/
def itemsOf (found : List EvidenceRow) (ids : List Text) : List Item :=
  ids.map fun id =>
    ⟨id, ((found.find? fun r => uuidColumn r.id = id).bind EvidenceRow.sha256).getD []⟩

section Hashes

variable (H : Sha256)

def signTarget (db : EvidenceTable) (orgId : Text) (evidenceIds : List Text)
    (batchId : Option Text) : Option Target :=
  let ids := sortedIds evidenceIds
  if ids = [] ∨ 200 < ids.length then none
  else
    let found := selectEvidence db orgId ids
    if found.length ≠ ids.length ∨ (∃ r ∈ found, r.sha256 = none ∨ r.sha256 = some []) then none
    else
      let items := itemsOf found ids
      match items with
      | [one] => some ⟨js "evidence:" ++ one.id, one.sha256, items⟩
      | _ => match batchId with
        | none => none
        | some [] => none
        | some batch => (merkleRoot H (items.map (Item.leaf H))).map fun root =>
            ⟨js "batch:" ++ batch, root, items⟩

/-! ## The signatures that are kept -/

/-- What the device confirmed, and the key it confirmed it with. -/
structure SignedAssertion where
  credentialId : Text
  publicKey : Text
  authenticatorData : Text
  clientDataJSON : Text
  signature : Text
  userVerified : Bool
  backupEligible : Bool
  backupState : Bool
  signCount : ℕ

/-- A row of `evidence_signatures`. -/
structure SignatureRow where
  organizationId : Text
  evidenceId : Text
  sha256 : Text
  signerUserId : Text
  signerName : Text
  function : Option Text
  purpose : Text
  signText : Text
  nonce : Text
  assertion : SignedAssertion
  batchId : Option Text
  merkleRoot : Option Text
  merkleProof : Option (List (Step Text))

/-- The row as its columns give it back. -/
def SignatureRow.kept (r : SignatureRow) : SignatureRow :=
  { r with
    organizationId := uuidColumn r.organizationId
    evidenceId := uuidColumn r.evidenceId
    signerUserId := uuidColumn r.signerUserId
    batchId := r.batchId.map uuidColumn }

/-- The unique key: organisation, nonce and evidence. -/
def SignatureRow.key (r : SignatureRow) : Text × Text × Text :=
  (r.organizationId, r.nonce, r.evidenceId)

/-- The rows that `onConflictDoNothing` inserts, as they are kept. -/
def insertRows (taken : List (Text × Text × Text)) : List SignatureRow → List SignatureRow
  | [] => []
  | r :: rows =>
    if r.kept.key ∈ taken then insertRows taken rows
    else r.kept :: insertRows (r.kept.key :: taken) rows

structure SignInput where
  orgId : Text
  fields : SignFields
  signText : Text
  signerName : Text
  evidenceIds : List Text
  assertion : SignedAssertion

structure SignedAudit where
  target : Text
  hash : Text
  evidence : List Text
  function : Text
  purpose : Text
  nonce : Text
  credentialId : Text
  userVerified : Bool

/-- `f.target.slice(6)` of a batch. -/
def batchOf (target : Text) : Option Text :=
  if target.take 6 = js "batch:" then some (target.drop 6) else none

/-- The target that the fields were issued for. -/
def targetOf (db : EvidenceTable) (input : SignInput) : Option Target :=
  (signTarget H db input.orgId input.evidenceIds (batchOf input.fields.target)).filter fun t =>
    t.target = input.fields.target && t.hash = input.fields.hash

/-- The row for an item at its place. -/
def rowOf (input : SignInput) (t : Target) (item : Item) (idx : ℕ) : SignatureRow :=
  let f := input.fields
  let batchId := batchOf f.target
  { organizationId := input.orgId
    evidenceId := item.id
    sha256 := item.sha256
    signerUserId := f.signer
    signerName := input.signerName
    function := if f.function = noField then none else some f.function
    purpose := f.purpose
    signText := input.signText
    nonce := f.nonce
    assertion := input.assertion
    batchId
    merkleRoot := batchId.map fun _ => t.hash
    merkleProof := batchId.bind fun _ => merkleProof H (t.items.map (Item.leaf H)) idx }

/-- The rows that were kept, and the result: none when the nonce was used before. -/
def storeSignatures (db : EvidenceTable) (stored : List SignatureRow) (input : SignInput) :
    List SignatureRow × Option (ℕ × SignedAudit) :=
  match targetOf H db input with
  | none => ([], none)
  | some t =>
    let f := input.fields
    let rows := t.items.mapIdx fun idx item => rowOf H input t item idx
    let inserted := insertRows (stored.map SignatureRow.key) rows
    (inserted, if inserted.length ≠ rows.length then none else
      some (rows.length, ⟨f.target, f.hash, t.items.map Item.id, f.function, f.purpose, f.nonce,
        input.assertion.credentialId, input.assertion.userVerified⟩))

end Hashes

/-! ## The items and their rows -/

theorem itemsOf_ids (found : List EvidenceRow) (ids : List Text) :
    (itemsOf found ids).map Item.id = ids := by
  unfold itemsOf
  rw [List.map_map]
  exact List.map_id ids

theorem mem_sortedIds {evidenceIds : List Text} {id : Text} :
    id ∈ sortedIds evidenceIds ↔ id ∈ evidenceIds := by
  unfold sortedIds
  rw [(List.perm_insertionSort _ _).mem_iff, List.mem_dedup]

/-- As many rows as ids are found only for ids that differ in more than the case of a digit. -/
theorem kept_ids_nodup {db : EvidenceTable} {orgId : Text} {ids : List Text}
    (h : (selectEvidence db orgId ids).length = ids.length) : (ids.map uuidColumn).Nodup := by
  let kept := (selectEvidence db orgId ids).map fun r => uuidColumn r.id
  have hnodup : kept.Nodup := (List.filter_sublist.map _).nodup db.ids_nodup
  have hsub : kept ⊆ ids.map uuidColumn := by
    intro k hk
    obtain ⟨r, hr, rfl⟩ := List.mem_map.mp hk
    have hany := (List.mem_filter.mp hr).2
    simp only [Bool.and_eq_true, List.any_eq_true, decide_eq_true_eq] at hany
    obtain ⟨id, hid, heq⟩ := hany.1.2
    exact List.mem_map.mpr ⟨id, hid, heq.symm⟩
  have hperm := (hnodup.subperm hsub).perm_of_length_le (by simp [kept, h])
  exact hperm.nodup_iff.mp hnodup

section Hashes

variable {H : Sha256}

/-- What is in a target. -/
structure TargetOf (db : EvidenceTable) (evidenceIds : List Text) (batchId : Option Text)
    (t : Target) : Prop where
  ids : t.items.map Item.id = sortedIds evidenceIds
  nodup : (t.items.map fun i => uuidColumn i.id).Nodup
  root : ∀ batch, batchId = some batch → t.target = js "batch:" ++ batch →
    merkleRoot H (t.items.map (Item.leaf H)) = some t.hash

theorem signTarget_spec {db : EvidenceTable} {orgId : Text} {evidenceIds : List Text}
    {batchId : Option Text} {t : Target} (h : signTarget H db orgId evidenceIds batchId = some t) :
    TargetOf (H := H) db evidenceIds batchId t := by
  unfold signTarget at h
  simp only at h
  split_ifs at h with hids hfound
  have hlen : (selectEvidence db orgId (sortedIds evidenceIds)).length =
      (sortedIds evidenceIds).length := by
    by_contra hne
    exact hfound (Or.inl hne)
  have hitems := itemsOf_ids (selectEvidence db orgId (sortedIds evidenceIds))
    (sortedIds evidenceIds)
  have hnodup := kept_ids_nodup hlen
  generalize itemsOf (selectEvidence db orgId (sortedIds evidenceIds)) (sortedIds evidenceIds) =
    items at h hitems
  have hkept : (items.map fun i => uuidColumn i.id).Nodup := by
    rwa [← hitems, List.map_map] at hnodup
  split at h
  · cases h
    refine ⟨hitems, hkept, fun batch _ htarget => ?_⟩
    cases htarget
  · split at h
    · cases h
    · cases h
    · obtain ⟨root, hroot, heq⟩ := Option.map_eq_some_iff.mp h
      cases heq
      exact ⟨hitems, hkept, fun _ _ _ => hroot⟩

/-- Equal inputs of a step come from equal values. -/
theorem eq_of_stepInput {a b : Text} {s : Step Text} (ha : IsHash a) (hb : IsHash b)
    (h : stepInput a s = stepInput b s) : a = b := by
  unfold stepInput nodeInput at h
  apply ha.eq_of_ofHex hb
  cases hside : s.side with
  | right =>
    rw [hside] at h
    exact List.append_cancel_right (List.cons.inj h).2
  | left =>
    rw [hside] at h
    exact List.append_cancel_left (List.cons.inj h).2

theorem fieldText_of_kept {id : Text} (h : isUuid (uuidColumn id) = true) : FieldText id := by
  intro u hu
  have hlow := fieldText_of_isUuid h (lowerUnit u) (List.mem_map_of_mem hu)
  rcases lowerUnit_cases u with ⟨hnat, hlo, hhi⟩ | ⟨heq, -⟩
  · refine ⟨?_, ?_⟩
    · simp only [isVisible, Bool.and_eq_true, decide_eq_true_eq]
      omega
    · rintro rfl
      exact absurd hhi (by decide)
  · rwa [heq] at hlow

/-- An item whose row leads to the root of the item is spelled as the row. -/
theorem kept_eq_of_climb {item : Item} {proof : List (Step Text)}
    (hid : isUuid (uuidColumn item.id) = true)
    (hinj : Set.InjOn H.digest {bs | bs ∈ heldAgainst H (pathInputs H (item.leaf H) proof)
      [item.text] item.kept.text proof})
    (h : climb (hashNode H) (item.kept.leaf H) proof = climb (hashNode H) (item.leaf H) proof) :
    uuidColumn item.id = item.id := by
  have hleaf : item.kept.leaf H = item.leaf H := by
    apply climb_injective _ h
    intro a b s ha hb heq
    rw [apply_hashNode, apply_hashNode] at heq
    apply eq_of_stepInput (isHash_of_mem_climbs (isHash_digest H _) ha)
      (isHash_of_mem_climbs (isHash_digest H _) hb)
    apply hinj _ _ (digest_eq heq)
    · exact List.mem_append_right _ (List.mem_append_right _ (List.mem_map.mpr ⟨_, ha, rfl⟩))
    · exact List.mem_append_left _ (List.mem_map.mpr ⟨_, hb, rfl⟩)
  have hinput : leafInput item.kept.text = leafInput item.text := by
    apply hinj _ _ (digest_eq hleaf)
    · exact List.mem_append_right _ (List.mem_append_left _ List.mem_cons_self)
    · exact List.mem_append_right _ (List.mem_append_left _
        (List.mem_cons_of_mem _ List.mem_cons_self))
  have hplain := fieldText_of_kept hid
  have hutf8 := (List.cons.inj hinput).2
  unfold Item.text Item.kept at hutf8
  rw [utf8_append (paired_of_plain (fieldText_of_isUuid hid)),
    utf8_append (paired_of_plain hplain)] at hutf8
  exact utf8_injective (paired_of_plain (fieldText_of_isUuid hid)) (paired_of_plain hplain)
    (List.append_cancel_right hutf8)

theorem mem_insertRows {taken : List (Text × Text × Text)} {rows : List SignatureRow}
    (h : (rows.map fun r => r.kept.key).Nodup) {row : SignatureRow} :
    row ∈ insertRows taken rows ↔ ∃ r ∈ rows, r.kept = row ∧ r.kept.key ∉ taken := by
  induction rows generalizing taken with
  | nil => simp [insertRows]
  | cons r rows ih =>
    obtain ⟨hfresh, hrows⟩ := List.nodup_cons.mp h
    have hother : ∀ r' ∈ rows, r'.kept.key ≠ r.kept.key := fun r' hr' heq =>
      hfresh (List.mem_map.mpr ⟨r', hr', heq⟩)
    unfold insertRows
    by_cases htaken : r.kept.key ∈ taken
    · rw [if_pos htaken, ih hrows]
      simp [htaken]
    · rw [if_neg htaken, List.mem_cons, ih hrows]
      simp only [List.mem_cons, exists_eq_or_imp]
      grind

theorem targetOf_spec {db : EvidenceTable} {input : SignInput} {t : Target}
    (h : targetOf H db input = some t) :
    TargetOf (H := H) db input.evidenceIds (batchOf input.fields.target) t ∧
      t.target = input.fields.target ∧ t.hash = input.fields.hash := by
  unfold targetOf at h
  rw [Option.filter_eq_some_iff] at h
  obtain ⟨hsign, hsame⟩ := h
  simp only [Bool.and_eq_true, decide_eq_true_eq] at hsame
  exact ⟨signTarget_spec hsign, hsame⟩

theorem batchOf_eq {target batch : Text} (h : batchOf target = some batch) :
    target = js "batch:" ++ batch := by
  unfold batchOf at h
  split_ifs at h with hkind
  cases h
  rw [← hkind]
  exact (List.take_append_drop 6 target).symm

/-- The proof of an item leads from its leaf to the signed hash. -/
theorem exists_proof {db : EvidenceTable} {input : SignInput} {t : Target} {batch : Text}
    (htarget : targetOf H db input = some t) (hbatch : batchOf input.fields.target = some batch)
    {idx : ℕ} {item : Item} (hitem : t.items[idx]? = some item) :
    ∃ proof, merkleProof H (t.items.map (Item.leaf H)) idx = some proof ∧
      climb (hashNode H) (item.leaf H) proof = input.fields.hash := by
  obtain ⟨hspec, hsame, hhash⟩ := targetOf_spec htarget
  have hleaf : (t.items.map (Item.leaf H))[idx]? = some (item.leaf H) := by
    rw [List.getElem?_map, hitem]
    rfl
  obtain ⟨proof, root, hproof, hroot, hverify⟩ := verify_merkleProof H hleaf
  have hsigned := hspec.root batch hbatch (hsame.trans (batchOf_eq hbatch))
  rw [hroot] at hsigned
  cases hsigned
  exact ⟨proof, hproof, (of_decide_eq_true hverify).trans hhash⟩

variable (H)

/-- A proof on a row leads from the evidence on it to the root in its signed text. -/
def SignatureRow.Proves (row : SignatureRow) : Prop :=
  ∀ proof, row.merkleProof = some proof → ∃ f, parseSignText row.signText = some f ∧
    verifyMerkleProof H (merkleLeaf H row.evidenceId row.sha256) proof f.hash = true

/-- What is hashed for the items of a batch, as they are selected and as they are kept. -/
def itemInputs (db : EvidenceTable) (input : SignInput) : Set Bytes :=
  {bs | ∃ t idx item proof, targetOf H db input = some t ∧ t.items[idx]? = some item ∧
    merkleProof H (t.items.map (Item.leaf H)) idx = some proof ∧
    bs ∈ heldAgainst H (pathInputs H (item.leaf H) proof) [item.text] item.kept.text proof}

/-- An id of a batch has a capital digit, and its signature is new. -/
def Misspelled (db : EvidenceTable) (stored : List SignatureRow) (input : SignInput) : Prop :=
  (targetOf H db input).isSome ∧ (batchOf input.fields.target).isSome ∧
    ∃ id ∈ input.evidenceIds, uuidColumn id ≠ id ∧
      (uuidColumn input.orgId, input.fields.nonce, uuidColumn id) ∉ stored.map SignatureRow.key

variable {H}

/-- The rows that are kept: those of the items whose key is new. -/
theorem mem_storeSignatures {db : EvidenceTable} {stored : List SignatureRow} {input : SignInput}
    {t : Target} (htarget : targetOf H db input = some t) {row : SignatureRow} :
    row ∈ (storeSignatures H db stored input).1 ↔ ∃ idx item, t.items[idx]? = some item ∧
      (rowOf H input t item idx).kept = row ∧ (uuidColumn input.orgId, input.fields.nonce,
        uuidColumn item.id) ∉ stored.map SignatureRow.key := by
  have hspec := (targetOf_spec htarget).1
  let rows := t.items.mapIdx fun idx item => rowOf H input t item idx
  have hkeys : (rows.map fun r => r.kept.key) = t.items.map fun i =>
      (uuidColumn input.orgId, input.fields.nonce, uuidColumn i.id) := by
    apply List.ext_getElem?
    intro idx
    simp [rows, rowOf, SignatureRow.kept, SignatureRow.key, Function.comp_def]
  have hnodup : (rows.map fun r => r.kept.key).Nodup := by
    rw [hkeys]
    have hmap := hspec.nodup.map (f := fun k => (uuidColumn input.orgId, input.fields.nonce, k))
      fun a b heq => (Prod.mk.inj (Prod.mk.inj heq).2).2
    rwa [List.map_map] at hmap
  have hstore : (storeSignatures H db stored input).1 =
      insertRows (stored.map SignatureRow.key) rows := by
    unfold storeSignatures
    rw [htarget]
  rw [hstore, mem_insertRows hnodup]
  simp only [rows, List.mem_mapIdx]
  constructor
  · rintro ⟨_, ⟨idx, hlt, rfl⟩, hkept, hnew⟩
    exact ⟨idx, t.items[idx], List.getElem?_eq_getElem hlt, hkept, hnew⟩
  · rintro ⟨idx, item, hitem, hkept, hnew⟩
    obtain ⟨hlt, rfl⟩ := List.getElem?_eq_some_iff.mp hitem
    exact ⟨_, ⟨idx, hlt, rfl⟩, hkept, hnew⟩

/-- The proofs that are kept hold, unless an id of a batch with a capital digit is new. -/
theorem kept_proofs_hold_iff {db : EvidenceTable} {stored : List SignatureRow} {input : SignInput}
    (hparse : parseSignText input.signText = some input.fields)
    (hids : ∀ id ∈ input.evidenceIds, isUuid (uuidColumn id) = true)
    (hinj : Set.InjOn H.digest (itemInputs H db input)) :
    (∀ row ∈ (storeSignatures H db stored input).1, row.Proves H) ↔
      ¬ Misspelled H db stored input := by
  cases htarget : targetOf H db input with
  | none => simp [storeSignatures, Misspelled, htarget]
  | some t =>
    have hspec := (targetOf_spec htarget).1
    have hmem : ∀ {idx : ℕ} {item : Item}, t.items[idx]? = some item →
        item.id ∈ input.evidenceIds := by
      intro idx item hitem
      rw [← mem_sortedIds, ← hspec.ids]
      exact List.mem_map_of_mem (List.mem_of_getElem? hitem)
    constructor
    · rintro hholds ⟨-, hbatch, id, hid, hcase, hnew⟩
      obtain ⟨batch, hbatch⟩ := Option.isSome_iff_exists.mp hbatch
      rw [← mem_sortedIds, ← hspec.ids] at hid
      obtain ⟨item, hitem, rfl⟩ := List.mem_map.mp hid
      obtain ⟨idx, hitem⟩ := List.mem_iff_getElem?.mp hitem
      obtain ⟨proof, hproof, hclimb⟩ := exists_proof htarget hbatch hitem
      have hrow := hholds _ ((mem_storeSignatures htarget).mpr ⟨idx, item, hitem, rfl, hnew⟩)
      have hkeptProof : (rowOf H input t item idx).kept.merkleProof = some proof := by
        simp [SignatureRow.kept, rowOf, hbatch, hproof]
      obtain ⟨f, hf, hverify⟩ := hrow proof hkeptProof
      have hsame : f = input.fields := Option.some.inj (hf.symm.trans hparse)
      rw [hsame] at hverify
      have hsub : {bs | bs ∈ heldAgainst H (pathInputs H (item.leaf H) proof) [item.text]
          item.kept.text proof} ⊆ itemInputs H db input :=
        fun bs hbs => ⟨t, idx, item, proof, htarget, hitem, hproof, hbs⟩
      apply hcase
      apply kept_eq_of_climb (hids _ (hmem hitem)) (hinj.mono hsub)
      exact (of_decide_eq_true hverify).trans hclimb.symm
    · intro hspelled row hrow proof hproof
      obtain ⟨idx, item, hitem, rfl, hnew⟩ := (mem_storeSignatures htarget).mp hrow
      refine ⟨input.fields, hparse, decide_eq_true ?_⟩
      cases hbatch : batchOf input.fields.target with
      | none => simp [SignatureRow.kept, rowOf, hbatch] at hproof
      | some batch =>
        obtain ⟨proof', hproof', hclimb⟩ := exists_proof htarget hbatch hitem
        have hsame : proof = proof' := by
          simp [SignatureRow.kept, rowOf, hbatch, hproof'] at hproof
          exact hproof.symm
        have hcase : uuidColumn item.id = item.id := by
          by_contra hcase
          apply hspelled
          rw [Misspelled, htarget, hbatch]
          exact ⟨rfl, rfl, item.id, hmem hitem, hcase, hnew⟩
        rw [hsame, ← hclimb, Item.leaf, ← hcase]
        simp only [SignatureRow.kept, rowOf, hcase]

end Hashes

/-- An item with an id and a checksum as the database has them. -/
def Item.Plain (i : Item) : Prop := FieldText i.id ∧ Paired i.sha256

theorem Item.paired_text {i : Item} (h : i.Plain) : Paired i.text :=
  (paired_of_plain h.1).append (.unit (by decide) h.2)

theorem Item.text_injective {i j : Item} (hi : i.Plain) (hj : j.Plain) (h : i.text = j.text) :
    i = j := by
  obtain ⟨hid, hsha⟩ := cut_at_bar hi.1 hj.1 h
  cases i
  cases j
  subst hid hsha
  rfl

/-- **Merkle proofs are complete and sound**, over the heads of the organisations and over the items
of a batch; and the proofs that are kept with the signatures of a batch hold unless an id that is
new has a capital digit. -/
theorem merkle_proofs_hold (H : Sha256) :
    (∀ (leaves : List Text) (index : ℕ) (leaf : Text), leaves[index]? = some leaf →
      ∃ path, Ledger.merklePath H leaves index = some path ∧
        Ledger.rootFromPath H leaf path = Ledger.merkleRoot H leaves) ∧
    (∀ (leaves : List Text) (index : ℕ) (leaf : Text), leaves[index]? = some leaf →
      ∃ proof root, merkleProof H leaves index = some proof ∧ merkleRoot H leaves = some root ∧
        verifyMerkleProof H leaf proof root = true) ∧
    (∀ (leaves : List Ledger.LedgerLeaf) (l : Ledger.LedgerLeaf) (path : List (Step Text)),
      Set.InjOn H.digest {bs | bs ∈ heldAgainst H
        (Ledger.rootInputs H (leaves.map (Ledger.leafHash H))) (leaves.map Ledger.leafText)
        (Ledger.leafText l) path} →
      Ledger.rootFromPath H (Ledger.leafHash H l) path =
        Ledger.merkleRoot H (leaves.map (Ledger.leafHash H)) → l ∈ leaves) ∧
    (∀ (items : List Item) (item : Item) (path : List (Step Text)) (root : Text),
      (∀ i ∈ item :: items, i.Plain) → merkleRoot H (items.map (Item.leaf H)) = some root →
      Set.InjOn H.digest {bs | bs ∈ heldAgainst H (rootInputs H (items.map (Item.leaf H)))
        (items.map Item.text) item.text path} →
      verifyMerkleProof H (item.leaf H) path root = true → item ∈ items) ∧
    (∀ (db : EvidenceTable) (stored : List SignatureRow) (input : SignInput),
      parseSignText input.signText = some input.fields →
      (∀ id ∈ input.evidenceIds, isUuid (uuidColumn id) = true) →
      Set.InjOn H.digest (itemInputs H db input) →
      ((∀ row ∈ (storeSignatures H db stored input).1, row.Proves H) ↔
        ¬ Misspelled H db stored input)) := by
  refine ⟨fun leaves index leaf h => ?_, fun leaves index leaf h => verify_merkleProof H h,
    fun leaves l path hinj hroot => Ledger.mem_of_rootFromPath hinj hroot,
    fun items item path root hplain hroot hinj hverify => ?_,
    fun db stored input hparse hids hinj => kept_proofs_hold_iff hparse hids hinj⟩
  · obtain ⟨hlt, -⟩ := List.getElem?_eq_some_iff.mp h
    exact ⟨_, if_pos hlt, Ledger.climb_pathOf H h⟩
  · have hleaves : items.map (Item.leaf H) = (items.map Item.text).map (hashLeaf H) := by
      rw [List.map_map]
      rfl
    rw [hleaves] at hroot hinj
    have hpaired : ∀ t ∈ item.text :: items.map Item.text, Paired t := by
      intro t ht
      obtain ⟨i, hi, rfl⟩ := List.mem_map.mp (List.map_cons ▸ ht)
      exact Item.paired_text (hplain i hi)
    obtain ⟨i, hi, heq⟩ := List.mem_map.mp (mem_of_verifyMerkleProof hroot hinj hpaired hverify)
    rwa [← Item.text_injective (hplain i (List.mem_cons_of_mem _ hi)) (hplain item
      List.mem_cons_self) heq]

/-! ## A batch of two -/

/-- A hash of the first bytes. -/
def prefixHash : Sha256 where
  digest bs := (bs ++ List.replicate 32 0).take 32
  size bs := by simp

def sampleIds : List Text :=
  [js "aaaaaaaa-0000-4000-8000-000000000000", js "bbbbbbbb-0000-4000-8000-000000000000"]

def sampleOrg : Text := js "2ad9b86d-857b-4165-8f02-d645992067dc"

def sampleTable : EvidenceTable where
  rows := sampleIds.map fun id => ⟨id, sampleOrg, some (List.replicate 64 (ch 'f')), none⟩
  ids_nodup := by decide

theorem levelsFrom_pair (H : Sha256) (a b : Text) :
    levelsFrom H [a, b] = [[a, b], [hashNode H a b]] := by
  simp [levelsFrom, nextLevel]

theorem merkleRoot_pair (H : Sha256) (a b : Text) : merkleRoot H [a, b] = some (hashNode H a b) := by
  simp [merkleRoot, levels, levelsFrom_pair]

theorem merkleProof_pair (H : Sha256) (a b : Text) :
    merkleProof H [a, b] 0 = some [⟨.right, b⟩] ∧ merkleProof H [a, b] 1 = some [⟨.left, a⟩] := by
  simp [merkleProof, levels, levelsFrom_pair, proofFrom, turn]

def sampleBatch : Text := js "6c48fec8-65dc-4a06-8e74-2e42e4ed46c1"

/-- The fields for two items. -/
def sampleFields (i j : Item) : SignFields where
  org := sampleOrg
  target := js "batch:" ++ sampleBatch
  hash := hashNode prefixHash (i.leaf prefixHash) (j.leaf prefixHash)
  signer := js "290cecfb-8c8c-4eee-b376-2fc8b2e5b70c"
  function := noField
  purpose := js "approve"
  nonce := js "0123456789abcdef0123456789abcdef"
  expires := js "2026-10-23T12:10:00Z"

def sampleInput (i j : Item) : SignInput where
  orgId := sampleOrg
  fields := sampleFields i j
  signText := (sampleFields i j).text
  signerName := js "Mustermann"
  evidenceIds := [i.id, j.id]
  assertion := ⟨[], [], [], [], [], true, false, false, 0⟩

theorem sample_target {i j : Item} (hids : sortedIds [i.id, j.id] = [i.id, j.id])
    (hfound : selectEvidence sampleTable sampleOrg [i.id, j.id] = sampleTable.rows)
    (hitems : itemsOf sampleTable.rows [i.id, j.id] = [i, j]) :
    targetOf prefixHash sampleTable (sampleInput i j) =
      some ⟨(sampleFields i j).target, (sampleFields i j).hash, [i, j]⟩ := by
  have hbatch : batchOf (sampleFields i j).target = some sampleBatch := by
    simp only [sampleFields]
    decide
  have hcount : sampleTable.rows.length = [i.id, j.id].length := rfl
  have hfit : ¬ (sampleTable.rows.length ≠ [i.id, j.id].length ∨
      ∃ r ∈ sampleTable.rows, r.sha256 = none ∨ r.sha256 = some []) := by
    rintro (hne | hempty)
    · exact hne hcount
    · exact absurd hempty (by decide)
  have hsign : signTarget prefixHash sampleTable sampleOrg [i.id, j.id] (some sampleBatch) =
      some ⟨(sampleFields i j).target, (sampleFields i j).hash, [i, j]⟩ := by
    unfold signTarget
    simp only [hids, hfound, hitems]
    rw [if_neg (by simp), if_neg hfit]
    simp only [List.map_cons, List.map_nil, merkleRoot_pair]
    rfl
  unfold targetOf
  simp only [sampleInput, hbatch, hsign]
  simp

/-- The first id in capital digits: its row is found, and its checksum is not. -/
def capitalItem : Item := ⟨js "AAAAAAAA-0000-4000-8000-000000000000", []⟩

def firstItem : Item := ⟨js "aaaaaaaa-0000-4000-8000-000000000000", List.replicate 64 (ch 'f')⟩

def secondItem : Item := ⟨js "bbbbbbbb-0000-4000-8000-000000000000", List.replicate 64 (ch 'f')⟩

/-- **The proof of an id in capital digits does not hold** for the row that is kept. -/
theorem capital_digits_break_a_proof :
    parseSignText (sampleInput capitalItem secondItem).signText =
        some (sampleInput capitalItem secondItem).fields ∧
      ∃ row ∈ (storeSignatures prefixHash sampleTable [] (sampleInput capitalItem secondItem)).1,
        ¬ row.Proves prefixHash := by
  have htarget := sample_target (i := capitalItem) (j := secondItem) (by decide +kernel)
    (by decide +kernel) (by decide +kernel)
  have hparse : parseSignText (sampleInput capitalItem secondItem).signText =
      some (sampleInput capitalItem secondItem).fields := parseSignText_text (by decide +kernel)
  refine ⟨hparse, _, (mem_storeSignatures htarget).mpr ⟨0, capitalItem, rfl, rfl, ?_⟩, ?_⟩
  · exact List.not_mem_nil
  · intro hproves
    obtain ⟨f, hf, hverify⟩ := hproves [⟨.right, secondItem.leaf prefixHash⟩] (by
      simp only [SignatureRow.kept, rowOf, List.map_cons, List.map_nil, (merkleProof_pair _ _ _).1]
      rfl)
    have hsame := Option.some.inj (hf.symm.trans hparse)
    rw [hsame] at hverify
    revert hverify
    decide +kernel

/-- What is hashed for an item of two, as it is selected and as it is kept. -/
def pairInputs (item : Item) (proof : List (Step Text)) : List Bytes :=
  heldAgainst prefixHash (pathInputs prefixHash (item.leaf prefixHash) proof) [item.text]
    item.kept.text proof

def sampleInputs : List Bytes :=
  pairInputs firstItem [⟨.right, secondItem.leaf prefixHash⟩] ++
    pairInputs secondItem [⟨.left, firstItem.leaf prefixHash⟩]

theorem itemInputs_sample :
    itemInputs prefixHash sampleTable (sampleInput firstItem secondItem) ⊆
      {bs | bs ∈ sampleInputs} := by
  rintro bs ⟨t, idx, item, proof, htarget, hitem, hproof, hbs⟩
  have hsample := sample_target (i := firstItem) (j := secondItem) (by decide +kernel)
    (by decide +kernel) (by decide +kernel)
  cases hsample.symm.trans htarget
  rcases idx with - | - | idx
  · cases hitem
    cases (merkleProof_pair _ _ _).1.symm.trans hproof
    exact List.mem_append_left _ hbs
  · cases hitem
    cases (merkleProof_pair _ _ _).2.symm.trans hproof
    exact List.mem_append_right _ hbs
  · cases hitem

theorem sample_batch_holds :
    (∀ row ∈ (storeSignatures prefixHash sampleTable [] (sampleInput firstItem secondItem)).1,
        row.Proves prefixHash) ∧
      (storeSignatures prefixHash sampleTable [] (sampleInput firstItem secondItem)).1 ≠ [] := by
  have hsample := sample_target (i := firstItem) (j := secondItem) (by decide +kernel)
    (by decide +kernel) (by decide +kernel)
  have hinj : ∀ a ∈ sampleInputs, ∀ b ∈ sampleInputs,
      prefixHash.digest a = prefixHash.digest b → a = b := by decide +kernel
  have hspelled : ∀ id ∈ (sampleInput firstItem secondItem).evidenceIds, uuidColumn id = id := by
    decide +kernel
  refine ⟨((merkle_proofs_hold prefixHash).2.2.2.2 sampleTable [] (sampleInput firstItem secondItem)
    (parseSignText_text (by decide +kernel)) (by decide +kernel)
    (Set.InjOn.mono itemInputs_sample fun a ha b hb => hinj a ha b hb)).mpr ?_, ?_⟩
  · rintro ⟨-, -, id, hid, hcase, -⟩
    exact hcase (hspelled id hid)
  · exact List.ne_nil_of_mem
      ((mem_storeSignatures hsample).mpr ⟨0, firstItem, rfl, rfl, List.not_mem_nil⟩)

end Klick.Signatures
