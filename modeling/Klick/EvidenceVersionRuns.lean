-- Runs of replacements and edits. The chains of versions and their links hold in every run; the
-- sheets are read without a lock and written whole, so they keep what was committed in the runs
-- in which nobody writes a sheet between its reading and its writing.
import Klick.EvidenceVersions
import Klick.Successors

open Js Interleaving Successors Relation

namespace Klick.EvidenceVersions

/-! ## Replacing in a sheet -/

theorem swap_of_not_mem {oldId newId : Text} {ids : List Text} (h : oldId ∉ ids) :
    swap oldId newId ids = ids := if_neg h

theorem map_swap_of_not_mem {oldId newId : Text} {ids? : Option (List Text)}
    (h : ∀ ids, ids? = some ids → oldId ∉ ids) : ids?.map (swap oldId newId) = ids? := by
  cases ids? with
  | none => rfl
  | some ids => rw [Option.map_some, swap_of_not_mem (h ids rfl)]

theorem not_mem_swap {oldId newId : Text} (hne : newId ≠ oldId) (ids : List Text) :
    oldId ∉ swap oldId newId ids := by
  unfold swap
  split_ifs with h
  · rw [mem_distinct, List.mem_map]
    rintro ⟨x, -, hx⟩
    split_ifs at hx with hold
    · exact hne hx
    · exact hold hx
  · exact h

theorem names_eq_false {s : ControlSheetState} {id : Text} : s.names id = false ↔
    (∀ m, s.answers = some m → ∀ v ∈ m.values, ∀ ids, v.evidenceIds = some ids → id ∉ ids) ∧
    ∀ m, s.items = some m → ∀ v ∈ m.values, ∀ ids, v.evidenceIds = some ids → id ∉ ids := by
  simp [ControlSheetState.names, Option.any_eq_false]

/-- A sheet that does not name the old version stays as it is. -/
theorem replaceInSheet_of_not_names {s : ControlSheetState} {oldId : Text} (newId : Text)
    (h : s.names oldId = false) : (replaceInSheet s oldId newId).sheet = s := by
  obtain ⟨hanswers, hitems⟩ := names_eq_false.mp h
  obtain ⟨answers, items, ownParams⟩ := s
  unfold replaceInSheet
  dsimp only at hanswers hitems ⊢
  congr 1
  · cases answers with
    | none => rfl
    | some m =>
      rw [Option.map_some, OrderedMap.mapValues_eq_self]
      intro v hv
      rw [map_swap_of_not_mem (hanswers m rfl v hv)]
  · cases items with
    | none => rfl
    | some m =>
      rw [Option.map_some, OrderedMap.mapValues_eq_self]
      intro v hv
      rw [map_swap_of_not_mem (hitems m rfl v hv)]

/-- Behind a replacement no sheet names the old version. -/
theorem names_replaceInSheet {oldId newId : Text} (hne : newId ≠ oldId) (s : ControlSheetState) :
    (replaceInSheet s oldId newId).sheet.names oldId = false := by
  rw [names_eq_false]
  constructor
  · intro m hm v hv ids hids
    obtain ⟨m', -, rfl⟩ := Option.map_eq_some_iff.mp hm
    rw [OrderedMap.values_mapValues, List.mem_map] at hv
    obtain ⟨v', -, rfl⟩ := hv
    obtain ⟨ids', -, rfl⟩ := Option.map_eq_some_iff.mp hids
    exact not_mem_swap hne ids'
  · intro m hm v hv ids hids
    obtain ⟨m', -, rfl⟩ := Option.map_eq_some_iff.mp hm
    rw [OrderedMap.values_mapValues, List.mem_map] at hv
    obtain ⟨v', -, rfl⟩ := hv
    obtain ⟨ids', -, rfl⟩ := Option.map_eq_some_iff.mp hids
    exact not_mem_swap hne ids'

/-! ## The rules -/

/-- One version replaces another. -/
def Replaces (db : Db) (r s : EvidenceRow) : Prop :=
  r ∈ db.evidence ∧ s ∈ db.evidence ∧ r.supersededById = some s.id

/-- The chains of versions. -/
structure Versions (db : Db) : Prop where
  ids : (db.evidence.map (·.id)).Nodup
  agree : ∀ r ∈ db.evidence, ∀ s ∈ db.evidence,
    r.supersededById = some s.id ↔ s.supersedesId = some r.id
  successor : ∀ r s t, Replaces db r s → Replaces db r t → s = t
  predecessor : ∀ r s t, Replaces db r t → Replaces db s t → r = s
  current : ∀ r ∈ db.evidence, ∃! z, (z ∈ db.evidence ∧ EqvGen (Replaces db) r z) ∧
    isCurrentEvidence z = true
  links : ∀ r s, Replaces db r s → ∀ c, (c, r.id) ∈ db.links → (c, s.id) ∈ db.links

/-- What a transaction is to do to the sheets that are committed before it. -/
def Txn.meaning (sheets : Text → Option ControlSheetState) :
    Txn → Text → Option ControlSheetState
  | .editing c _ edit =>
    Function.update sheets c (some (edit.apply ((sheets c).getD .empty)))
  | .reading r .. => fun c => (sheets c).map fun s => (replaceInSheet s r.oldId r.newId).sheet
  | _ => sheets

/-- The sheets behind a step, as its transaction means it. -/
def meant (w : World) : Act → Text → Option ControlSheetState
  | .commit n => (w.running[n]?).elim w.db.sheets (·.meaning w.db.sheets)
  | _ => w.db.sheets

/-- A step that changes sheets only as its transaction means it; and behind a replacement no sheet
names the old version. -/
structure SheetsKept (mentions : ControlSheetState → Text → Bool) (w : World) (a : Act) : Prop where
  meant : ∀ w', step mentions w a = some w' → w'.db.sheets = meant w a
  unnamed : ∀ w' n r visible links sheets, a = .commit n →
    w.running[n]? = some (.reading r visible links sheets) → step mentions w a = some w' →
      ∀ c s, w'.db.sheets c = some s → s.names r.oldId = false

/-- A sheet that is written, or that names the old version, is still the one that was read. -/
def Txn.Undisturbed (db : Db) : Txn → Prop
  | .editing c sheet _ => db.sheets c = sheet
  | .reading r _ _ sheets => ∀ c s,
      ((db.sheets c = some s ∨ sheets c = some s) ∧ s.names r.oldId = true) →
        db.sheets c = sheets c
  | _ => True

def Undisturbed (w : World) : Act → Prop
  | .commit n => ∀ t ∈ w.running[n]?, t.Undisturbed w.db
  | _ => True

/-- Nothing was replaced yet. -/
structure World.Fresh (w : World) : Prop where
  ids : (w.db.evidence.map (·.id)).Nodup
  uuids : ∀ r ∈ w.db.evidence, isUuid r.id = true
  current : ∀ r ∈ w.db.evidence,
    r.supersededAt = none ∧ r.supersededById = none ∧ r.supersedesId = none
  running : w.running = []

/-! ## Chains -/

/-- Versions in the order in which they were created. -/
structure Chained (rows : List EvidenceRow) : Prop where
  ids : (rows.map (·.id)).Nodup
  uuids : ∀ r ∈ rows, isUuid r.id = true
  marked : ∀ r ∈ rows, r.supersededAt = none ↔ r.supersededById = none
  forward : ∀ r ∈ rows, ∀ id, r.supersededById = some id →
    ∃ s ∈ rows, s.id = id ∧ s.supersedesId = some r.id
  backward : ∀ s ∈ rows, ∀ id, s.supersedesId = some id →
    ∃ r ∈ rows, r.id = id ∧ r.supersededById = some s.id
  irrefl : ∀ r ∈ rows, r.supersededById ≠ some r.id
  order : rows.Pairwise fun r s => s.supersededById ≠ some r.id

theorem Chained.eq {rows : List EvidenceRow} (h : Chained rows) {r s : EvidenceRow} (hr : r ∈ rows)
    (hs : s ∈ rows) (hid : r.id = s.id) : r = s := List.inj_on_of_nodup_map h.ids hr hs hid

/-- A successor comes later. -/
theorem Chained.idxOf_lt {rows : List EvidenceRow} (h : Chained rows) {r s : EvidenceRow}
    (hr : r ∈ rows) (hs : s ∈ rows) (hnext : r.supersededById = some s.id) :
    rows.idxOf r < rows.idxOf s := by
  have hri := List.idxOf_lt_length_iff.mpr hr
  have hsi := List.idxOf_lt_length_iff.mpr hs
  rcases Nat.lt_trichotomy (rows.idxOf r) (rows.idxOf s) with hlt | heq | hgt
  · exact hlt
  · have hrs : r = s := by
      rw [← List.getElem_idxOf hri, ← List.getElem_idxOf hsi]
      simp only [heq]
    rw [hrs] at hnext
    exact absurd hnext (h.irrefl s hs)
  · have hpair := List.pairwise_iff_getElem.mp h.order _ _ hsi hri hgt
    rw [List.getElem_idxOf hri, List.getElem_idxOf hsi] at hpair
    exact absurd hnext hpair

theorem Chained.agree {rows : List EvidenceRow} (h : Chained rows) {r s : EvidenceRow}
    (hr : r ∈ rows) (hs : s ∈ rows) : r.supersededById = some s.id ↔ s.supersedesId = some r.id := by
  constructor
  · intro hnext
    obtain ⟨t, ht, hid, hback⟩ := h.forward r hr _ hnext
    rwa [h.eq ht hs hid] at hback
  · intro hback
    obtain ⟨t, ht, hid, hnext⟩ := h.backward s hs _ hback
    rwa [h.eq ht hr hid] at hnext

theorem Chained.rightUnique {db : Db} (h : Chained db.evidence) :
    Relator.RightUnique (Replaces db) := by
  rintro r s t ⟨_, hs, hrs⟩ ⟨_, ht, hrt⟩
  exact h.eq hs ht (Option.some.inj (hrs.symm.trans hrt))

/-- The last members of the chains are the current versions. -/
theorem Chained.last_iff {db : Db} (h : Chained db.evidence) {z : EvidenceRow}
    (hz : z ∈ db.evidence) : Last (Replaces db) z ↔ isCurrentEvidence z = true := by
  rw [isCurrentEvidence, decide_eq_true_eq, h.marked z hz]
  constructor
  · intro hlast
    by_contra hne
    obtain ⟨id, hid⟩ := Option.ne_none_iff_exists'.mp hne
    obtain ⟨s, hs, rfl, -⟩ := h.forward z hz id hid
    exact hlast s ⟨hz, hs, hid⟩
  · rintro hnone s ⟨_, _, hnext⟩
    rw [hnone] at hnext
    cases hnext

theorem mem_of_eqvGen {db : Db} {r z : EvidenceRow} (h : EqvGen (Replaces db) r z) :
    r ∈ db.evidence ↔ z ∈ db.evidence := by
  induction h with
  | rel r s h => exact ⟨fun _ => h.2.1, fun _ => h.1⟩
  | refl r => exact Iff.rfl
  | symm r s _ ih => exact ih.symm
  | trans r s t _ _ ihrs ihst => exact ihrs.trans ihst

theorem Chained.current {db : Db} (h : Chained db.evidence) {r : EvidenceRow}
    (hr : r ∈ db.evidence) : ∃! z, (z ∈ db.evidence ∧ EqvGen (Replaces db) r z) ∧
      isCurrentEvidence z = true := by
  have hrank : ∀ a b, Replaces db a b → db.evidence.idxOf a < db.evidence.idxOf b :=
    fun a b hab => h.idxOf_lt hab.1 hab.2.1 hab.2.2
  have hbound : ∀ a b, Replaces db a b → db.evidence.idxOf b ≤ db.evidence.length :=
    fun a b _ => List.idxOf_le_length
  obtain ⟨z, ⟨hrz, hlast⟩, honly⟩ := existsUnique_last h.rightUnique hrank hbound r
  have hz := (mem_of_eqvGen hrz).mp hr
  refine ⟨z, ⟨⟨hz, hrz⟩, (h.last_iff hz).mp hlast⟩, ?_⟩
  rintro y ⟨⟨hy, hry⟩, hcurrent⟩
  exact honly y ⟨hry, (h.last_iff hy).mpr hcurrent⟩

/-! ## A new version -/

/-- What the commit of a replacement has to find. -/
structure Succeeds (db : Db) (r : Replacement) (old : EvidenceRow) : Prop where
  mem : old ∈ db.evidence
  id : old.id = r.oldId
  current : old.supersededAt = none
  uuid : isUuid r.newId = true
  fresh : r.newId ∉ db.evidence.map (·.id)

/-- The rows behind a replacement. -/
def withVersion (r : Replacement) (visible : Bool) (rows : List EvidenceRow) : List EvidenceRow :=
  updateRows (·.id = r.oldId) r.supersede rows ++ [r.row visible]

section Version

variable {db : Db} {r : Replacement} {old : EvidenceRow} (h : Succeeds db r old)
  (hc : Chained db.evidence) {visible : Bool}
include h

theorem Succeeds.ne : r.newId ≠ r.oldId := by
  rw [← h.id]
  intro heq
  exact h.fresh (heq ▸ List.mem_map_of_mem h.mem)

include hc

/-- The rows are the old ones, the one that is replaced with its mark, and the new one. -/
theorem Succeeds.mem_iff {s : EvidenceRow} : s ∈ withVersion r visible db.evidence ↔
    (s ∈ db.evidence ∧ s.id ≠ r.oldId) ∨ s = r.supersede old ∨ s = r.row visible := by
  unfold withVersion
  rw [List.mem_append, mem_updateRows, List.mem_singleton]
  constructor
  · rintro ((⟨t, ht, hid, rfl⟩ | ⟨hs, hid⟩) | rfl)
    · rw [decide_eq_true_eq] at hid
      rw [hc.eq ht h.mem (hid.trans h.id.symm)]
      exact .inr (.inl rfl)
    · exact .inl ⟨hs, by simpa using hid⟩
    · exact .inr (.inr rfl)
  · rintro (⟨hs, hid⟩ | rfl | rfl)
    · exact .inl (.inr ⟨hs, by simpa using hid⟩)
    · exact .inl (.inl ⟨old, h.mem, by simpa using h.id, rfl⟩)
    · exact .inr rfl

/-- Nothing has replaced the old version before. -/
theorem Succeeds.unreplaced : old.supersededById = none := (hc.marked old h.mem).mp h.current

/-- Nothing refers to the new id before. -/
theorem Succeeds.unreferred {s : EvidenceRow} (hs : s ∈ db.evidence) :
    s.supersededById ≠ some r.newId := by
  intro hnext
  obtain ⟨t, ht, hid, -⟩ := hc.forward s hs _ hnext
  exact h.fresh (hid ▸ List.mem_map_of_mem ht)

theorem Succeeds.chained : Chained (withVersion r visible db.evidence) where
  ids := by
    have hsame : (updateRows (·.id = r.oldId) r.supersede db.evidence).map (·.id) =
        db.evidence.map (·.id) := map_updateRows (f := r.supersede) (fun _ => rfl) _
    unfold withVersion
    rw [List.map_append, hsame, List.nodup_append]
    refine ⟨hc.ids, List.nodup_singleton _, ?_⟩
    rintro id hid _ hnew rfl
    rw [List.map_singleton, List.mem_singleton] at hnew
    subst hnew
    exact h.fresh hid
  uuids s hs := by
    rcases (h.mem_iff hc).mp hs with ⟨hs, -⟩ | rfl | rfl
    · exact hc.uuids s hs
    · exact hc.uuids old h.mem
    · exact h.uuid
  marked s hs := by
    rcases (h.mem_iff hc).mp hs with ⟨hs, -⟩ | rfl | rfl
    · exact hc.marked s hs
    · simp [Replacement.supersede]
    · simp [Replacement.row]
  forward s hs id hid := by
    rcases (h.mem_iff hc).mp hs with ⟨hs, hne⟩ | rfl | rfl
    · obtain ⟨t, ht, hti, hback⟩ := hc.forward s hs id hid
      by_cases hold : t.id = r.oldId
      · have heq : t = old := hc.eq ht h.mem (hold.trans h.id.symm)
        exact ⟨r.supersede old, (h.mem_iff hc).mpr (.inr (.inl rfl)), heq ▸ hti, heq ▸ hback⟩
      · exact ⟨t, (h.mem_iff hc).mpr (.inl ⟨ht, hold⟩), hti, hback⟩
    · refine ⟨r.row visible, (h.mem_iff hc).mpr (.inr (.inr rfl)), Option.some.inj hid, ?_⟩
      exact congrArg some h.id.symm
    · cases hid
  backward s hs id hid := by
    have hkept : ∀ t ∈ db.evidence, ∀ u : EvidenceRow, t.supersededById = some u.id →
        t ∈ withVersion r visible db.evidence := by
      intro t ht u hnext
      refine (h.mem_iff hc).mpr (.inl ⟨ht, ?_⟩)
      intro hold
      rw [hc.eq ht h.mem (hold.trans h.id.symm), h.unreplaced hc] at hnext
      cases hnext
    rcases (h.mem_iff hc).mp hs with ⟨hs, -⟩ | rfl | rfl
    · obtain ⟨t, ht, hti, hnext⟩ := hc.backward s hs id hid
      exact ⟨t, hkept t ht s hnext, hti, hnext⟩
    · obtain ⟨t, ht, hti, hnext⟩ := hc.backward old h.mem id hid
      exact ⟨t, hkept t ht old hnext, hti, hnext⟩
    · refine ⟨r.supersede old, (h.mem_iff hc).mpr (.inr (.inl rfl)), ?_, rfl⟩
      exact h.id.trans (Option.some.inj hid)
  irrefl s hs := by
    rcases (h.mem_iff hc).mp hs with ⟨hs, -⟩ | rfl | rfl
    · exact hc.irrefl s hs
    · intro heq
      exact h.ne ((Option.some.inj heq).trans h.id)
    · exact nofun
  order := by
    unfold withVersion
    rw [List.pairwise_append]
    refine ⟨?_, List.pairwise_singleton _ _, ?_⟩
    · unfold updateRows
      rw [List.pairwise_map]
      refine hc.order.imp_of_mem ?_
      intro s t hs ht hst
      have hid : (if decide (s.id = r.oldId) = true then r.supersede s else s).id = s.id := by
        split <;> rfl
      rw [hid]
      split
      · intro heq
        exact h.fresh (Option.some.inj heq ▸ List.mem_map_of_mem hs)
      · exact hst
    · intro s _ t ht
      rw [List.mem_singleton.mp ht]
      exact nofun

end Version

/-- Each version is linked where the one that it replaces is. -/
def Linked (db : Db) : Prop :=
  ∀ r s, Replaces db r s → ∀ c, (c, r.id) ∈ db.links → (c, s.id) ∈ db.links

/-- What a transaction has read, as far as it still holds. -/
def Txn.Holds (db : Db) : Txn → Prop
  | .editing .. => True
  | .locked r => ∃ old ∈ db.evidence, old.id = r.oldId ∧ old.supersededAt = none
  | .linked r _ links => (∃ old ∈ db.evidence, old.id = r.oldId ∧ old.supersededAt = none) ∧
      ∀ c, (c, r.oldId) ∈ db.links → c ∈ links
  | .reading r _ links _ => (∃ old ∈ db.evidence, old.id = r.oldId ∧ old.supersededAt = none) ∧
      ∀ c, (c, r.oldId) ∈ db.links → c ∈ links

structure Inv (w : World) : Prop where
  chained : Chained w.db.evidence
  linked : Linked w.db
  holds : ∀ t ∈ w.running, t.Holds w.db
  locks : Exclusive Txn.locks w.running

theorem Inv.versions {w : World} (h : Inv w) : Versions w.db where
  ids := h.chained.ids
  agree _ hr _ hs := h.chained.agree hr hs
  successor r s t hs ht := h.chained.rightUnique hs ht
  predecessor r s t hr hs := by
    have hrt := (h.chained.agree hr.1 hr.2.1).mp hr.2.2
    have hst := (h.chained.agree hs.1 hs.2.1).mp hs.2.2
    exact h.chained.eq hr.1 hs.1 (Option.some.inj (hrt.symm.trans hst))
  current _ hr := h.chained.current hr
  links := h.linked

/-! ## Steps -/

section Steps

variable {mentions : ControlSheetState → Text → Bool}

/-- The database behind a replacement. -/
def replaced (mentions : ControlSheetState → Text → Bool) (r : Replacement) (visible : Bool)
    (links : List Text) (sheets : Text → Option ControlSheetState) (db : Db) : Db where
  evidence := withVersion r visible db.evidence
  links := db.links ++ links.map fun c => (c, r.newId)
  sheets := writeSheets mentions r sheets db.sheets

/-- What a commit writes, with what it has to find. -/
theorem write_cases {db db' : Db} {t : Txn} (h : t.write mentions db = some db')
    (hholds : t.Holds db) :
    (∃ c sheet edit, t = .editing c sheet edit ∧ db' = { db with
      sheets := Function.update db.sheets c (some (edit.apply (sheet.getD .empty))) }) ∨
    ∃ r visible links sheets old, t = .reading r visible links sheets ∧ Succeeds db r old ∧
      r.newId ∉ db.links.map Prod.snd ∧ (∀ c, (c, r.oldId) ∈ db.links → c ∈ links) ∧
      db' = replaced mentions r visible links sheets db := by
  cases t with
  | editing c sheet edit =>
    unfold Txn.write at h
    dsimp only at h
    split_ifs at h
    cases h
    exact .inl ⟨c, sheet, edit, rfl, rfl⟩
  | locked => cases h
  | linked => cases h
  | reading r visible links sheets =>
    unfold Txn.write at h
    dsimp only at h
    split_ifs at h with hfresh
    cases h
    obtain ⟨⟨old, hmem, hid, hcurrent⟩, hlinks⟩ := hholds
    exact .inr ⟨r, visible, links, sheets, old, rfl,
      ⟨hmem, hid, hcurrent, hfresh.1, hfresh.2.1⟩, hfresh.2.2, hlinks, rfl⟩

/-- An old row that is current stays so when another one is replaced. -/
theorem holds_current {db : Db} (hc : Chained db.evidence) {r : Replacement} {old : EvidenceRow}
    (h : Succeeds db r old) {visible : Bool} {id : Text} (hne : id ≠ r.oldId)
    (hold : ∃ s ∈ db.evidence, s.id = id ∧ s.supersededAt = none) :
    ∃ s ∈ withVersion r visible db.evidence, s.id = id ∧ s.supersededAt = none := by
  obtain ⟨s, hs, hid, hcurrent⟩ := hold
  exact ⟨s, (h.mem_iff hc).mpr (.inl ⟨hs, hid ▸ hne⟩), hid, hcurrent⟩

theorem links_of_replaced {db : Db} {r : Replacement} {old : EvidenceRow} (h : Succeeds db r old)
    {visible : Bool} {links : List Text} {sheets : Text → Option ControlSheetState} {id : Text}
    (hold : ∃ s ∈ db.evidence, s.id = id) {c : Text}
    (hmem : (c, id) ∈ (replaced mentions r visible links sheets db).links) :
    (c, id) ∈ db.links := by
  rcases List.mem_append.mp hmem with hmem | hmem
  · exact hmem
  · obtain ⟨d, -, heq⟩ := List.mem_map.mp hmem
    obtain ⟨s, hs, hid⟩ := hold
    obtain ⟨-, rfl⟩ := Prod.mk.inj heq
    exact absurd (List.mem_map_of_mem hs) (hid ▸ h.fresh)

/-- What the other transactions have read still holds. -/
theorem holds_replaced {db : Db} (hc : Chained db.evidence) {r : Replacement} {old : EvidenceRow}
    (h : Succeeds db r old) {visible : Bool} {links : List Text}
    {sheets : Text → Option ControlSheetState} {t : Txn} (ht : t.Holds db)
    (hlocks : t.locks ≠ some r.oldId) :
    t.Holds (replaced mentions r visible links sheets db) := by
  have hne : ∀ {id : Text}, some id ≠ some r.oldId → id ≠ r.oldId :=
    fun hne heq => hne (congrArg some heq)
  cases t with
  | editing => trivial
  | locked r' => exact holds_current hc h (hne hlocks) ht
  | linked r' visible' links' =>
    obtain ⟨hold, hlinks⟩ := ht
    refine ⟨holds_current hc h (hne hlocks) hold, ?_⟩
    obtain ⟨s, hs, hid, -⟩ := hold
    exact fun c hmem => hlinks c (links_of_replaced h ⟨s, hs, hid⟩ hmem)
  | reading r' visible' links' sheets' =>
    obtain ⟨hold, hlinks⟩ := ht
    refine ⟨holds_current hc h (hne hlocks) hold, ?_⟩
    obtain ⟨s, hs, hid, -⟩ := hold
    exact fun c hmem => hlinks c (links_of_replaced h ⟨s, hs, hid⟩ hmem)

/-- The new version takes the links over. -/
theorem linked_replaced {db : Db} (hc : Chained db.evidence) (hl : Linked db) {r : Replacement}
    {old : EvidenceRow} (h : Succeeds db r old) {visible : Bool} {links : List Text}
    {sheets : Text → Option ControlSheetState}
    (hlinks : ∀ c, (c, r.oldId) ∈ db.links → c ∈ links) :
    Linked (replaced mentions r visible links sheets db) := by
  rintro s t ⟨hs, ht, hnext⟩ c hmem
  rcases (h.mem_iff hc).mp hs with ⟨hs, -⟩ | rfl | rfl
  · -- a version that was replaced before, by one that was there
    have hmem := links_of_replaced h ⟨s, hs, rfl⟩ hmem
    apply List.mem_append_left
    rcases (h.mem_iff hc).mp ht with ⟨ht, -⟩ | rfl | rfl
    · exact hl s t ⟨hs, ht, hnext⟩ c hmem
    · exact hl s old ⟨hs, h.mem, hnext⟩ c hmem
    · exact absurd hnext (h.unreferred hc hs)
  · have hmem := links_of_replaced h ⟨old, h.mem, rfl⟩ hmem
    rw [← Option.some.inj hnext]
    apply List.mem_append_right
    exact List.mem_map.mpr ⟨c, hlinks c (h.id ▸ hmem), rfl⟩
  · cases hnext

theorem lock_cases {w w' : World} {r : Replacement} (h : w.lock r = some w') :
    w' = w ∨ w' = { w with running := w.running ++ [.locked r] } ∧
      (Txn.locked r).Holds w.db ∧ ∀ u ∈ w.running, u.locks ≠ some r.oldId := by
  unfold World.lock at h
  by_cases hlocked : w.running.any (·.locks = some r.oldId) = true
  · rw [if_pos hlocked] at h
    cases h
  · rw [if_neg hlocked] at h
    have hfree : ∀ u ∈ w.running, u.locks ≠ some r.oldId := by
      intro u hu hul
      exact hlocked (List.any_eq_true.mpr ⟨u, hu, by simp [hul]⟩)
    cases hstate : lockForSuccessor w.db r.oldId with
    | notFound =>
      rw [hstate] at h
      cases h
      exact .inl rfl
    | alreadySuperseded =>
      rw [hstate] at h
      cases h
      exact .inl rfl
    | ok =>
      rw [hstate] at h
      cases h
      refine .inr ⟨rfl, ?_, hfree⟩
      unfold lockForSuccessor at hstate
      cases hfind : w.db.evidence.find? (·.id = r.oldId) with
      | none =>
        rw [hfind] at hstate
        cases hstate
      | some old =>
        rw [hfind] at hstate
        dsimp only at hstate
        split_ifs at hstate with hsome
        refine ⟨old, List.mem_of_find?_eq_some hfind, ?_, by simpa using hsome⟩
        simpa using List.find?_some hfind

theorem Inv.drop {w : World} (h : Inv w) (n : ℕ) :
    Inv { w with running := w.running.eraseIdx n } where
  chained := h.chained
  linked := h.linked
  holds t ht := h.holds t (List.mem_of_mem_eraseIdx ht)
  locks := h.locks.eraseIdx n

/-- A transaction that begins. -/
theorem Inv.add {w : World} (h : Inv w) {t : Txn} (ht : t.Holds w.db)
    (hfree : ∀ k, t.locks = some k → ∀ u ∈ w.running, u.locks ≠ some k) :
    Inv { w with running := w.running ++ [t] } where
  chained := h.chained
  linked := h.linked
  holds u hu := by
    rcases List.mem_append.mp hu with hu | hu
    · exact h.holds u hu
    · rw [List.mem_singleton.mp hu]
      exact ht
  locks := h.locks.concat hfree

/-- A transaction that reads on. -/
theorem Inv.set {w : World} (h : Inv w) {n : ℕ} {t u : Txn} (ht : w.running[n]? = some t)
    (hlocks : u.locks = t.locks) (hu : u.Holds w.db) :
    Inv { w with running := w.running.set n u } where
  chained := h.chained
  linked := h.linked
  holds v hv := by
    rcases List.mem_or_eq_of_mem_set hv with hv | rfl
    · exact h.holds v hv
    · exact hu
  locks := h.locks.set ht hlocks

theorem commit_cases {w w' : World} {n : ℕ} (h : w.commit mentions n = some w') :
    ∃ t db', w.running[n]? = some t ∧ t.write mentions w.db = some db' ∧
      w' = ⟨db', w.running.eraseIdx n⟩ := by
  obtain ⟨t, ht, h⟩ := Option.bind_eq_some_iff.mp h
  obtain ⟨db', hdb, h⟩ := Option.bind_eq_some_iff.mp h
  cases h
  exact ⟨t, db', ht, hdb, rfl⟩

theorem Inv.commit {w w' : World} (h : Inv w) {n : ℕ} (hstep : w.commit mentions n = some w') :
    Inv w' := by
  obtain ⟨t, db', ht, hwrite, rfl⟩ := commit_cases hstep
  have hrest := h.drop n
  rcases write_cases hwrite (h.holds t (List.mem_of_getElem? ht)) with
    ⟨c, sheet, edit, rfl, rfl⟩ | ⟨r, visible, links, sheets, old, rfl, hs, -, hlinks, rfl⟩
  · refine ⟨h.chained, h.linked, ?_, hrest.locks⟩
    intro u hu
    have hholds := hrest.holds u hu
    cases u <;> exact hholds
  · refine ⟨hs.chained h.chained, linked_replaced h.chained h.linked hs hlinks, ?_, hrest.locks⟩
    intro u hu
    exact holds_replaced h.chained hs (hrest.holds u hu) (h.locks.ne ht hu rfl)

/-- Every step keeps the chains and their links. -/
theorem Inv.step {w w' : World} {a : Act} (h : Inv w) (hstep : step mentions w a = some w') :
    Inv w' := by
  cases a with
  | edit c edit =>
    cases hstep
    exact h.add trivial nofun
  | replace r =>
    rcases lock_cases hstep with rfl | ⟨rfl, hholds, hfree⟩
    · exact h
    · refine h.add hholds ?_
      rintro k hk
      cases hk
      exact hfree
  | readLinks n =>
    unfold EvidenceVersions.step World.readLinks at hstep
    dsimp only at hstep
    split at hstep
    · rename_i r hget
      cases hstep
      refine h.set hget rfl ⟨h.holds _ (List.mem_of_getElem? hget), ?_⟩
      intro c hc
      exact List.mem_map.mpr ⟨_, List.mem_filter.mpr ⟨hc, by simp⟩, rfl⟩
    · cases hstep
  | readSheets n =>
    unfold EvidenceVersions.step World.readSheets at hstep
    dsimp only at hstep
    split at hstep
    · rename_i r visible links hget
      cases hstep
      have hholds := h.holds _ (List.mem_of_getElem? hget)
      exact h.set hget rfl hholds
    · cases hstep
  | commit n => exact h.commit hstep
  | rollback n =>
    obtain ⟨t, -, rfl⟩ := Option.map_eq_some_iff.mp hstep
    exact h.drop n

theorem World.Fresh.inv {w : World} (h : w.Fresh) : Inv w where
  chained := {
    ids := h.ids
    uuids := h.uuids
    marked := fun r hr => by simp [h.current r hr]
    forward := fun r hr id hid => by simp [h.current r hr] at hid
    backward := fun r hr id hid => by simp [h.current r hr] at hid
    irrefl := fun r hr => by simp [h.current r hr]
    order := by
      refine List.Pairwise.imp_of_mem ?_ (List.pairwise_of_forall (R := fun _ _ => True) (by simp))
      intro r s _ hs _
      simp [h.current s hs] }
  linked := by
    rintro r s ⟨hr, _, hnext⟩
    simp [h.current r hr] at hnext
  holds := by
    rw [h.running]
    exact fun _ ht => nomatch ht
  locks := by
    rw [h.running]
    exact exclusive_nil

/-! ## Sheets -/

/-- Sheets that nobody has written since they were read are written as they are meant. -/
theorem writeSheets_eq (hmentions : ∀ s id, isUuid id = true → s.names id = true →
      mentions s id = true) {r : Replacement} (huuid : isUuid r.oldId = true)
    {read now : Text → Option ControlSheetState}
    (h : ∀ c s, ((now c = some s ∨ read c = some s) ∧ s.names r.oldId = true) → now c = read c) :
    writeSheets mentions r read now =
      fun c => (now c).map fun s => (replaceInSheet s r.oldId r.newId).sheet := by
  funext c
  by_cases hnames : ∃ s, (now c = some s ∨ read c = some s) ∧ s.names r.oldId = true
  · obtain ⟨s, hs, hn⟩ := hnames
    have heq := h c s ⟨hs, hn⟩
    have hread : read c = some s := by
      rcases hs with hs | hs
      · rw [← heq, hs]
      · exact hs
    have hfilter : (some s).filter (mentions · r.oldId) = some s := by
      rw [Option.filter_some, if_pos (hmentions s r.oldId huuid hn)]
    have hchanged : (replaceInSheet s r.oldId r.newId).changed = true := hn
    unfold writeSheets
    rw [heq, hread, hfilter]
    dsimp only
    rw [if_pos hchanged, Option.map_some]
  · have hnot : ∀ s, (now c = some s ∨ read c = some s) → s.names r.oldId = false := by
      intro s hs
      exact Bool.eq_false_of_not_eq_true fun hn => hnames ⟨s, hs, hn⟩
    have hkept : (now c).map (fun s => (replaceInSheet s r.oldId r.newId).sheet) = now c := by
      cases hnow : now c with
      | none => rfl
      | some s => rw [Option.map_some, replaceInSheet_of_not_names _ (hnot s (.inl hnow))]
    rw [hkept]
    unfold writeSheets
    cases hfilter : (read c).filter (mentions · r.oldId) with
    | none => rfl
    | some s =>
      have hread := (Option.filter_eq_some_iff.mp hfilter).1
      have hchanged : (replaceInSheet s r.oldId r.newId).changed = false :=
        hnot s (.inr hread)
      dsimp only
      rw [hchanged, if_neg Bool.false_ne_true]

/-- An undisturbed commit changes sheets as its transaction means it. -/
theorem sheets_of_undisturbed (hmentions : ∀ s id, isUuid id = true → s.names id = true →
      mentions s id = true) {w : World} (h : Inv w) {n : ℕ} {t : Txn}
    (ht : w.running[n]? = some t) (hu : t.Undisturbed w.db) {db' : Db}
    (hwrite : t.write mentions w.db = some db') : db'.sheets = t.meaning w.db.sheets := by
  rcases write_cases hwrite (h.holds t (List.mem_of_getElem? ht)) with
    ⟨c, sheet, edit, rfl, rfl⟩ | ⟨r, visible, links, sheets, old, rfl, hs, -, -, rfl⟩
  · have hu : w.db.sheets c = sheet := hu
    dsimp only [Txn.meaning]
    rw [hu]
  · exact writeSheets_eq hmentions (hs.id ▸ h.chained.uuids old hs.mem) hu

theorem step_keeps (hmentions : ∀ s id, isUuid id = true → s.names id = true →
      mentions s id = true) {w : World} {a : Act} (h : Inv w) (hu : Undisturbed w a) :
    SheetsKept mentions w a := by
  constructor
  · intro w' hstep
    cases a with
    | edit c edit =>
      cases hstep
      rfl
    | replace r =>
      rcases lock_cases hstep with rfl | ⟨rfl, -⟩ <;> rfl
    | readLinks n =>
      unfold step World.readLinks at hstep
      dsimp only at hstep
      split at hstep <;> cases hstep
      rfl
    | readSheets n =>
      unfold step World.readSheets at hstep
      dsimp only at hstep
      split at hstep <;> cases hstep
      rfl
    | commit n =>
      obtain ⟨t, db', ht, hwrite, rfl⟩ := commit_cases hstep
      rw [meant, ht]
      exact sheets_of_undisturbed hmentions h ht (hu t ht) hwrite
    | rollback n =>
      obtain ⟨t, -, rfl⟩ := Option.map_eq_some_iff.mp hstep
      rfl
  · rintro w' n r visible links sheets rfl ht hstep c s hsheet
    obtain ⟨t, db', ht', hwrite, rfl⟩ := commit_cases hstep
    obtain rfl : _ = t := Option.some.inj (ht.symm.trans ht')
    have hsheets := sheets_of_undisturbed hmentions h ht (hu _ ht) hwrite
    have hsheet : db'.sheets c = some s := hsheet
    rw [hsheets] at hsheet
    obtain ⟨s', -, rfl⟩ := Option.map_eq_some_iff.mp hsheet
    rcases write_cases hwrite (h.holds _ (List.mem_of_getElem? ht)) with
      ⟨c, sheet, edit, heq, -⟩ | ⟨r', visible', links', sheets', old, heq, hs, -⟩
    · cases heq
    · cases heq
      exact names_replaceInSheet hs.ne s'

end Steps

/-- **Replacing loses nothing** of the chains and their links, in every run; and nothing of the
sheets in the runs in which nobody writes a sheet between its reading and its writing. The text of
a sheet contains the ids that it names. -/
theorem replacing_loses_nothing {mentions : ControlSheetState → Text → Bool}
    (hmentions : ∀ s id, isUuid id = true → s.names id = true → mentions s id = true)
    {w w' : World} {acts : List Act} (hw : w.Fresh) (hrun : run (step mentions) w acts = some w') :
    Versions w'.db ∧
    (Along (step mentions) Undisturbed w acts →
      Along (step mentions) (SheetsKept mentions) w acts) := by
  have hstep : ∀ v a u, Inv v → step mentions v a = some u → Inv u :=
    fun v a u hv h => hv.step h
  constructor
  · exact (run_keeps (fun v a u hv _ => hstep v a u hv) hw.inv (along_true _ w acts) hrun).versions
  · exact along_imp hstep (fun v a hv hu => step_keeps hmentions hv hu) hw.inv

/-! ## A lost edit -/

def sampleOld : Text := js "00000000-0000-4000-8000-000000000001"

def sampleReplacement : Replacement where
  oldId := sampleOld
  newId := js "00000000-0000-4000-8000-000000000002"
  classification := .internal
  now := 1

def sampleEdit : SheetEdit := .answer (js "q") (some (.yes, none)) (js "now") (js "u")

/-- One version, in the sheet of one control. -/
def sampleStart : World where
  db := {
    evidence := [⟨sampleOld, .internal, false, none, none, none⟩]
    links := [(js "c", sampleOld)]
    sheets := fun c =>
      if c = js "c" then
        some ⟨none, some (OrderedMap.empty.set (js "i")
          ⟨.evidence, none, some [sampleOld], none, none, none⟩), none⟩
      else none }
  running := []

theorem fresh_sampleStart : sampleStart.Fresh where
  ids := List.nodup_singleton _
  uuids r hr := by
    rw [List.mem_singleton.mp hr]
    decide +kernel
  current r hr := by
    rw [List.mem_singleton.mp hr]
    exact ⟨rfl, rfl, rfl⟩
  running := rfl

/-- Whether the sheet has answers. -/
def answered (sheets : Text → Option ControlSheetState) : Bool :=
  (sheets (js "c")).any (·.answers.isSome)

/-- An answer is saved while a replacement is about to write the sheet. -/
def lostActs : List Act := [
  .replace sampleReplacement, .readLinks 0, .readSheets 0, .edit (js "c") sampleEdit, .commit 1]

theorem saved_answer_is_lost :
    ∃ w w', run (step ControlSheetState.names) sampleStart lostActs = some w ∧
      step ControlSheetState.names w (.commit 0) = some w' ∧ answered w.db.sheets = true ∧
      answered w'.db.sheets = false ∧ ¬ SheetsKept ControlSheetState.names w (.commit 0) := by
  have hrun : (run (step ControlSheetState.names) sampleStart lostActs).any (fun w =>
      answered w.db.sheets && answered (meant w (.commit 0)) &&
        (step ControlSheetState.names w (.commit 0)).any fun w' => !answered w'.db.sheets) =
      true := by
    decide +kernel
  obtain ⟨w, hw, hall⟩ := (Option.any_eq_true _ _).mp hrun
  rw [Bool.and_eq_true, Bool.and_eq_true] at hall
  obtain ⟨⟨hbefore, hmeant⟩, hafter⟩ := hall
  obtain ⟨w', hw', hafter⟩ := (Option.any_eq_true _ _).mp hafter
  rw [Bool.not_eq_true'] at hafter
  refine ⟨w, w', hw, hw', hbefore, hafter, ?_⟩
  intro hkept
  rw [hkept.meant w' hw', hmeant] at hafter
  cases hafter

/-- Nobody comes between the last reading and the writing. -/
theorem undisturbed_alone (mentions : ControlSheetState → Text → Bool) (w : World) (n : ℕ) :
    Along (step mentions) Undisturbed w [.readSheets n, .commit n] := by
  refine ⟨trivial, ?_⟩
  intro w' hstep
  refine ⟨?_, fun _ _ => trivial⟩
  intro t ht
  unfold step World.readSheets at hstep
  dsimp only at hstep
  split at hstep
  · rename_i r visible links hget
    cases hstep
    have hlt := (List.getElem?_eq_some_iff.mp hget).1
    rw [List.getElem?_set_self hlt] at ht
    cases ht
    exact fun _ _ _ => rfl
  · cases hstep

theorem sample_is_replaced : ∃ w : World, Versions w.db ∧
    Along (step ControlSheetState.names) (SheetsKept ControlSheetState.names) sampleStart
      [.replace sampleReplacement, .readLinks 0, .readSheets 0, .commit 0] := by
  have hsome : (run (step ControlSheetState.names) sampleStart
      [.replace sampleReplacement, .readLinks 0, .readSheets 0, .commit 0]).isSome = true := by
    decide +kernel
  obtain ⟨w, hrun⟩ := Option.isSome_iff_exists.mp hsome
  obtain ⟨hversions, hkept⟩ :=
    replacing_loses_nothing (fun _ _ _ h => h) fresh_sampleStart hrun
  refine ⟨w, hversions, hkept ⟨trivial, fun v _ => ⟨trivial, fun u _ => ?_⟩⟩⟩
  exact undisturbed_alone _ u 0

end Klick.EvidenceVersions
