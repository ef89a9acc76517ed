-- Histories of scans. Findings are one per fingerprint, and what a person has decided stays;
-- but a full scan of the scope that reported a finding first resolves it, also when a scan of
-- another scope still reports it.
import Klick.Findings

open Js Interleaving

namespace Klick.Findings

/-! ## Histories -/

/-- What a scan has reported. -/
structure ScanReport where
  scope : Scope
  full : Bool
  fps : List Text
deriving DecidableEq

structure World where
  rows : List FindingRow
  /-- The scans so far, the latest first. -/
  scans : List ScanReport

/-- What a person, a retest or the end of an acceptance writes. -/
structure Decision where
  status : FindingStatus
  statusNote : Option Text
  acceptedUntil : Option Text
  resolvedAt : Option ℤ
  reopenCount : ℕ

def Decision.write (d : Decision) (r : FindingRow) : FindingRow :=
  { r with
    status := d.status
    statusNote := d.statusNote
    acceptedUntil := d.acceptedUntil
    resolvedAt := d.resolvedAt
    reopenCount := d.reopenCount }

inductive Act
  | importScan (newId : Text → Text) (input : ImportInput) (now : ℤ)
  | decide (id : Text) (d : Decision)
  /-- A finding that a tester has entered. -/
  | enter (row : FindingRow)

section Steps

variable (digest : Text → Text)

def ImportInput.report (input : ImportInput) : ScanReport :=
  ⟨input.scope, input.fullScan, input.fps digest⟩

/-- Ids of new rows are random: no row has one of them, and no two are the same. -/
def FreshIds (rows : List FindingRow) (newId : Text → Text) (input : ImportInput) : Prop :=
  (∀ fp ∈ input.fps digest, ∀ r ∈ rows, r.id ≠ newId fp) ∧ ((input.fps digest).map newId).Nodup

instance (rows : List FindingRow) (newId : Text → Text) (input : ImportInput) :
    Decidable (FreshIds digest rows newId input) := inferInstanceAs (Decidable (_ ∧ _))

def step (w : World) : Act → Option World
  | .importScan newId input now =>
    if FreshIds digest w.rows newId input then
      some ⟨(importScan digest w.rows newId input now).rows, input.report digest :: w.scans⟩
    else none
  | .decide id d => some { w with rows := updateRows (fun r => r.id = id) d.write w.rows }
  | .enter row =>
    -- the primary key, and the unique index over the fingerprints
    if ∀ r ∈ w.rows, r.id ≠ row.id ∧ r.fingerprint ≠ row.fingerprint then
      some { w with rows := w.rows ++ [row] }
    else none

end Steps

/-- Nothing was imported or entered yet. -/
def World.empty : World := ⟨[], []⟩

/-! ## The rules -/

/-- The latest scan of a scope that could report a fingerprint does report it. -/
def StillReported (scans : List ScanReport) (scope : Scope) (fp : Text) : Prop :=
  ∃ s, scans.find? (fun s => s.scope = scope ∧ (s.full = true ∨ fp ∈ s.fps)) = some s ∧ fp ∈ s.fps

/-- A finding is resolved only once no scope in which it was reported reports it any more. -/
def ResolvesRightly (w w' : World) : Prop :=
  ∀ r ∈ w.rows, ∀ r' ∈ w'.rows, r'.id = r.id → r.status ≠ .resolved → r'.status = .resolved →
    ∀ scope, (∃ s ∈ w'.scans, s.scope = scope ∧ r.fingerprint ∈ s.fps) →
      ¬ StillReported w'.scans scope r.fingerprint

/-- What an import leaves as it is: what a person has decided, but for when and by which scan the
finding was seen last; and after a partial scan, what is not resolved. -/
structure LeavesRest (w : World) (input : ImportInput) (now : ℤ) (w' : World) : Prop where
  decided : ∀ r ∈ w.rows, r.status.IsDecided → r ∈ w'.rows ∨ markSeen input.scanId now r ∈ w'.rows
  unresolved : input.fullScan = false → ∀ r' ∈ w'.rows, r'.status = .resolved →
    ∃ r ∈ w.rows, r.id = r'.id ∧ r.status = .resolved

/-- A full scan misses no open finding of its scope that a scan of another scope has reported. -/
def OneScope (digest : Text → Text) (w : World) (input : ImportInput) : Prop :=
  input.fullScan = true → ∀ r ∈ w.rows, r.scope = input.scope → r.status.IsOpen →
    r.fingerprint ∉ input.fps digest →
      ∀ s ∈ w.scans, r.fingerprint ∈ s.fps → s.scope = input.scope

instance (digest : Text → Text) (w : World) (input : ImportInput) :
    Decidable (OneScope digest w input) := by
  unfold OneScope
  infer_instance

/-! ## Rows -/

structure Unique (rows : List FindingRow) : Prop where
  fingerprints : (rows.map (·.fingerprint)).Nodup
  ids : (rows.map (·.id)).Nodup

/-- An update that leaves ids and fingerprints. -/
theorem Unique.update {rows : List FindingRow} (h : Unique rows) (p : FindingRow → Bool)
    {f : FindingRow → FindingRow} (hid : ∀ r, (f r).id = r.id)
    (hfp : ∀ r, (f r).fingerprint = r.fingerprint) : Unique (updateRows p f rows) where
  fingerprints := by
    rw [map_updateRows hfp]
    exact h.fingerprints
  ids := by
    rw [map_updateRows hid]
    exact h.ids

theorem Unique.append {rows : List FindingRow} (h : Unique rows) {row : FindingRow}
    (hid : ∀ r ∈ rows, r.id ≠ row.id) (hfp : ∀ r ∈ rows, r.fingerprint ≠ row.fingerprint) :
    Unique (rows ++ [row]) := by
  constructor
  · rw [List.map_append, List.nodup_append]
    refine ⟨h.fingerprints, List.nodup_singleton _, ?_⟩
    simp only [List.mem_map, List.map_cons, List.map_nil, List.mem_singleton]
    rintro _ ⟨r, hr, rfl⟩ _ rfl
    exact hfp r hr
  · rw [List.map_append, List.nodup_append]
    refine ⟨h.ids, List.nodup_singleton _, ?_⟩
    simp only [List.mem_map, List.map_cons, List.map_nil, List.mem_singleton]
    rintro _ ⟨r, hr, rfl⟩ _ rfl
    exact hid r hr

theorem Unique.eq {rows : List FindingRow} (h : Unique rows) {r s : FindingRow} (hr : r ∈ rows)
    (hs : s ∈ rows) (hid : r.id = s.id) : r = s := List.inj_on_of_nodup_map h.ids hr hs hid

/-- New rows come after the old ones; some of them may find their fingerprint taken. -/
theorem inserted_eq (created rows : List FindingRow) :
    ∃ news, created.foldl insertFinding rows = rows ++ news ∧ news.Sublist created := by
  induction created generalizing rows with
  | nil => exact ⟨[], by simp, .slnil⟩
  | cons c cs ih =>
    rw [List.foldl_cons]
    by_cases htaken : rows.any (fun r => r.fingerprint = c.fingerprint) = true
    · rw [show insertFinding rows c = rows from if_pos htaken]
      obtain ⟨news, heq, hsub⟩ := ih rows
      exact ⟨news, heq, hsub.cons c⟩
    · rw [show insertFinding rows c = rows ++ [c] from if_neg htaken]
      obtain ⟨news, heq, hsub⟩ := ih (rows ++ [c])
      refine ⟨c :: news, ?_, hsub.cons_cons c⟩
      rw [heq, List.append_assoc]
      rfl

theorem Unique.insert {created rows : List FindingRow} (h : Unique rows)
    (hfresh : ∀ c ∈ created, ∀ r ∈ rows, r.id ≠ c.id) (hids : (created.map (·.id)).Nodup) :
    Unique (created.foldl insertFinding rows) := by
  induction created generalizing rows with
  | nil => exact h
  | cons c cs ih =>
    rw [List.map_cons, List.nodup_cons] at hids
    have hne : ∀ d ∈ cs, c.id ≠ d.id := fun d hd heq => hids.1 (heq ▸ List.mem_map_of_mem hd)
    rw [List.foldl_cons]
    by_cases htaken : rows.any (fun r => r.fingerprint = c.fingerprint) = true
    · rw [show insertFinding rows c = rows from if_pos htaken]
      exact ih h (fun d hd => hfresh d (List.mem_cons_of_mem _ hd)) hids.2
    · rw [show insertFinding rows c = rows ++ [c] from if_neg htaken]
      apply ih _ _ hids.2
      · apply h.append (hfresh c List.mem_cons_self)
        intro r hr heq
        exact htaken (List.any_eq_true.mpr ⟨r, hr, by simpa using heq⟩)
      · intro d hd r hr
        rcases List.mem_append.mp hr with hr | hr
        · exact hfresh d (List.mem_cons_of_mem _ hd) r hr
        · rw [List.mem_singleton] at hr
          rw [hr]
          exact hne d hd

/-! ## One import -/

section Import

variable {digest : Text → Text}

theorem byFp_mem {existing : List FindingRow} {fp : Text} {e : FindingRow}
    (h : byFp existing fp = some e) : e ∈ existing ∧ e.fingerprint = fp := by
  refine ⟨List.mem_reverse.mp (List.mem_of_find?_eq_some h), ?_⟩
  simpa using List.find?_some h

/-- A row that the plan counts as seen again, or as back, is not resolved or is. -/
theorem seen_status {rows existing : List FindingRow} (h : Unique rows)
    (hsub : ∀ e ∈ existing, e ∈ rows) {incoming : List Text} {full : Bool} {r : FindingRow}
    (hr : r ∈ rows) (hseen : r.id ∈ (reconcile existing incoming full).seen) :
    r.status ≠ .resolved := by
  obtain ⟨fp, -, hfound⟩ := List.mem_filterMap.mp hseen
  obtain ⟨e, he, hid⟩ := Option.bind_eq_some_iff.mp hfound
  split_ifs at hid with hstatus
  cases h.eq (hsub e (byFp_mem he).1) hr (Option.some.inj hid)
  exact hstatus

theorem reopen_status {rows existing : List FindingRow} (h : Unique rows)
    (hsub : ∀ e ∈ existing, e ∈ rows) {incoming : List Text} {full : Bool} {r : FindingRow}
    (hr : r ∈ rows) (hreopen : r.id ∈ (reconcile existing incoming full).reopen) :
    r.status = .resolved := by
  obtain ⟨fp, -, hfound⟩ := List.mem_filterMap.mp hreopen
  obtain ⟨e, he, hid⟩ := Option.bind_eq_some_iff.mp hfound
  split_ifs at hid with hstatus
  cases h.eq (hsub e (byFp_mem he).1) hr (Option.some.inj hid)
  exact hstatus

/-- Only a full scan resolves, and only open findings that it does not report. -/
theorem resolve_iff {rows existing : List FindingRow} (h : Unique rows)
    (hsub : ∀ e ∈ existing, e ∈ rows) {incoming : List Text} {full : Bool} {r : FindingRow}
    (hr : r ∈ rows) : r.id ∈ (reconcile existing incoming full).resolve ↔
      full = true ∧ r ∈ existing ∧ r.fingerprint ∉ incoming ∧ r.status.IsOpen := by
  unfold reconcile
  dsimp only
  by_cases hfull : full = true
  · rw [if_pos hfull, List.mem_filterMap]
    constructor
    · rintro ⟨e, he, hid⟩
      split_ifs at hid with hopen
      cases h.eq (hsub e he) hr (Option.some.inj hid)
      exact ⟨hfull, he, hopen⟩
    · rintro ⟨-, he, hopen⟩
      exact ⟨r, he, if_pos hopen⟩
  · simp [hfull]

/-- What an import does to one row. -/
def reconciled (plan : ReconcilePlan) (scanId : Text) (now : ℤ) (r : FindingRow) : FindingRow :=
  let seen := if r.id ∈ plan.seen then markSeen scanId now r else r
  let back := if r.id ∈ plan.reopen then markReopened scanId now seen else seen
  if r.id ∈ plan.resolve then markResolved now back else back

@[simp] theorem reconciled_id (plan : ReconcilePlan) (scanId : Text) (now : ℤ) (r : FindingRow) :
    (reconciled plan scanId now r).id = r.id := by
  unfold reconciled
  dsimp only
  split_ifs <;> rfl

theorem updates_eq (plan : ReconcilePlan) (scanId : Text) (now : ℤ) (rows : List FindingRow) :
    updateRows (withIds plan.resolve) (markResolved now)
      (updateRows (withIds plan.reopen) (markReopened scanId now)
        (updateRows (withIds plan.seen) (markSeen scanId now) rows)) =
      rows.map (reconciled plan scanId now) := by
  unfold updateRows
  rw [List.map_map, List.map_map]
  apply List.map_congr_left
  intro r _
  have hseen : (if withIds plan.seen r = true then markSeen scanId now r else r).id = r.id := by
    split_ifs <;> rfl
  have hback : ∀ s : FindingRow, s.id = r.id →
      (if withIds plan.reopen s = true then markReopened scanId now s else s).id = r.id := by
    intro s hs
    split_ifs <;> exact hs
  simp only [Function.comp_apply, reconciled]
  unfold withIds at hseen hback ⊢
  simp only [decide_eq_true_eq] at hseen hback ⊢
  rw [hback _ hseen, hseen]

variable (digest) in
/-- The plan of an import. -/
def planOf (rows : List FindingRow) (input : ImportInput) : ReconcilePlan :=
  reconcile (existingOf digest rows input) (input.fps digest) input.fullScan

theorem existingOf_sub {rows : List FindingRow} {input : ImportInput} :
    ∀ e ∈ existingOf digest rows input, e ∈ rows := fun _ he => (List.mem_filter.mp he).1

variable (digest) in
/-- The rows after an import: the old ones and some new ones, each as the plan says. -/
theorem importScan_rows (rows : List FindingRow) (newId : Text → Text) (input : ImportInput)
    (now : ℤ) :
    ∃ news, news.Sublist (createdRows digest newId input now (planOf digest rows input)) ∧
      (importScan digest rows newId input now).rows =
        (rows ++ news).map (reconciled (planOf digest rows input) input.scanId now) := by
  obtain ⟨news, heq, hsub⟩ :=
    inserted_eq (createdRows digest newId input now (planOf digest rows input)) rows
  refine ⟨news, hsub, ?_⟩
  rw [← heq]
  exact updates_eq _ _ _ _

theorem createdRows_id {newId : Text → Text} {input : ImportInput}
    {now : ℤ} {plan : ReconcilePlan} {c : FindingRow}
    (h : c ∈ createdRows digest newId input now plan) : ∃ fp ∈ plan.create, c.id = newId fp ∧
      c.status = .opened := by
  obtain ⟨fp, hfp, hc⟩ := List.mem_filterMap.mp h
  obtain ⟨e, -, rfl⟩ := Option.map_eq_some_iff.mp hc
  exact ⟨fp, hfp, rfl, rfl⟩

variable (digest) in
theorem createdRows_ids (newId : Text → Text) (input : ImportInput) (now : ℤ)
    (plan : ReconcilePlan) :
    ((createdRows digest newId input now plan).map (·.id)).Sublist (plan.create.map newId) := by
  unfold createdRows
  induction plan.create with
  | nil => exact .slnil
  | cons fp fps ih =>
    rw [List.filterMap_cons]
    cases hf : (input.incoming digest).find? (fun e => e.1 = fp) with
    | none => exact ih.cons _
    | some e => exact ih.cons_cons _

theorem fresh_created {rows : List FindingRow} {newId : Text → Text} {input : ImportInput}
    (hfresh : FreshIds digest rows newId input) {now : ℤ} {c : FindingRow}
    (hc : c ∈ createdRows digest newId input now (planOf digest rows input)) :
    ∀ r ∈ rows, r.id ≠ c.id := by
  obtain ⟨fp, hfp, hid, -⟩ := createdRows_id hc
  rw [hid]
  exact hfresh.1 fp (List.mem_filter.mp hfp).1

theorem Unique.importScan {rows : List FindingRow} (h : Unique rows) {newId : Text → Text}
    {input : ImportInput} (hfresh : FreshIds digest rows newId input) (now : ℤ) :
    Unique (importScan digest rows newId input now).rows := by
  have hins : Unique ((createdRows digest newId input now (planOf digest rows input)).foldl
      insertFinding rows) := by
    apply h.insert fun c hc => fresh_created hfresh hc
    have hsub := (createdRows_ids digest newId input now (planOf digest rows input)).trans
      (List.filter_sublist.map newId)
    exact hfresh.2.sublist hsub
  apply ((hins.update _ _ _).update _ _ _).update _ _ _ <;> exact fun _ => rfl

variable (digest) in
/-- Every old row is still there, as the plan says. -/
theorem importScan_old {rows : List FindingRow} (newId : Text → Text) (input : ImportInput)
    (now : ℤ) {r : FindingRow} (hr : r ∈ rows) :
    reconciled (planOf digest rows input) input.scanId now r ∈
      (Findings.importScan digest rows newId input now).rows := by
  obtain ⟨news, -, heq⟩ := importScan_rows digest rows newId input now
  rw [heq]
  exact List.mem_map_of_mem (List.mem_append_left _ hr)

/-- A row with the id of an old one is that one. -/
theorem importScan_of_id {rows : List FindingRow} (h : Unique rows) {newId : Text → Text}
    {input : ImportInput} (hfresh : FreshIds digest rows newId input) {now : ℤ}
    {r r' : FindingRow} (hr : r ∈ rows)
    (hr' : r' ∈ (Findings.importScan digest rows newId input now).rows) (hid : r'.id = r.id) :
    r' = reconciled (planOf digest rows input) input.scanId now r := by
  apply (h.importScan hfresh now).eq hr' (importScan_old digest newId input now hr)
  rw [hid, reconciled_id]

/-- Only what the plan resolves becomes resolved. -/
theorem resolved_of_reconciled {rows : List FindingRow} (h : Unique rows) {input : ImportInput}
    {now : ℤ} {r : FindingRow} (hr : r ∈ rows) (hstatus : r.status ≠ .resolved)
    (hresolved : (reconciled (planOf digest rows input) input.scanId now r).status = .resolved) :
    r.id ∈ (planOf digest rows input).resolve := by
  by_contra hnot
  have hback : r.id ∉ (planOf digest rows input).reopen := fun hin =>
    hstatus (reopen_status h existingOf_sub hr hin)
  unfold reconciled at hresolved
  dsimp only at hresolved
  rw [if_neg hnot, if_neg hback] at hresolved
  split_ifs at hresolved
  · exact hstatus hresolved
  · exact hstatus hresolved

/-- **An import leaves what a person has decided**, and a partial one resolves nothing. -/
theorem leavesRest_importScan {w : World} (h : Unique w.rows) {newId : Text → Text}
    {input : ImportInput} {now : ℤ} {w' : World}
    (hstep : step digest w (.importScan newId input now) = some w') :
    LeavesRest w input now w' := by
  simp only [step] at hstep
  split_ifs at hstep with hfresh
  cases hstep
  refine ⟨?_, ?_⟩
  · intro r hr hdecided
    have hkept := importScan_old digest newId input now hr
    have hback : r.id ∉ (planOf digest w.rows input).reopen := by
      intro hin
      have := reopen_status h existingOf_sub hr hin
      rcases hdecided with hd | hd <;> rw [hd] at this <;> cases this
    have hresolve : r.id ∉ (planOf digest w.rows input).resolve := by
      intro hin
      obtain ⟨-, -, -, hopen⟩ := (resolve_iff h existingOf_sub hr).mp hin
      rcases hdecided with hd | hd <;> rcases hopen with ho | ho <;> rw [hd] at ho <;> cases ho
    unfold reconciled at hkept
    dsimp only at hkept
    rw [if_neg hresolve, if_neg hback] at hkept
    split_ifs at hkept
    · exact .inr hkept
    · exact .inl hkept
  · intro hpart r' hr' hresolved
    obtain ⟨news, hsub, heq⟩ := importScan_rows digest w.rows newId input now
    have hnone : (planOf digest w.rows input).resolve = [] := by
      unfold planOf reconcile
      dsimp only
      rw [if_neg (by simp [hpart])]
    rw [heq] at hr'
    obtain ⟨r, hr, rfl⟩ := List.mem_map.mp hr'
    have hstatus : r.status = .resolved := by
      unfold reconciled at hresolved
      dsimp only at hresolved
      rw [hnone, if_neg List.not_mem_nil] at hresolved
      split_ifs at hresolved
      · cases hresolved
      · cases hresolved
      · exact hresolved
      · exact hresolved
    rcases List.mem_append.mp hr with hr | hr
    · exact ⟨r, hr, (reconciled_id _ _ _ _).symm, hstatus⟩
    · obtain ⟨fp, -, -, hnew⟩ := createdRows_id (hsub.subset hr)
      rw [hstatus] at hnew
      cases hnew

/-- **An import resolves rightly** where it misses no finding that another scope has reported. -/
theorem resolvesRightly_importScan {w : World} (h : Unique w.rows) {newId : Text → Text}
    {input : ImportInput} {now : ℤ} {w' : World}
    (hstep : step digest w (.importScan newId input now) = some w')
    (hone : OneScope digest w input) : ResolvesRightly w w' := by
  simp only [step] at hstep
  split_ifs at hstep with hfresh
  cases hstep
  intro r hr r' hr' hid hstatus hresolved scope hreported
  rw [importScan_of_id h hfresh hr hr' hid] at hresolved
  have hin := resolved_of_reconciled h hr hstatus hresolved
  obtain ⟨hfull, hexisting, hmissed, hopen⟩ := (resolve_iff h existingOf_sub hr).mp hin
  have hscope : r.scope = input.scope := by
    have := (List.mem_filter.mp hexisting).2
    simp only [decide_eq_true_eq] at this
    exact this.resolve_left hmissed
  have hothers := hone hfull r hr hscope hopen hmissed
  obtain ⟨s, hs, rfl, hfp⟩ := hreported
  have hsame : s.scope = input.scope := by
    rcases List.mem_cons.mp hs with rfl | hs
    · rfl
    · exact hothers s hs hfp
  rintro ⟨latest, hfind, hstill⟩
  have hfirst : latest = input.report digest := by
    dsimp only at hfind
    rw [List.find?_cons_of_pos (by simp [ImportInput.report, hsame, hfull])] at hfind
    exact (Option.some.inj hfind).symm
  rw [hfirst] at hstill
  exact hmissed hstill

end Import

/-! ## Runs -/

theorem Unique.step {digest : Text → Text} {w w' : World} {a : Act} (h : Unique w.rows)
    (hstep : step digest w a = some w') : Unique w'.rows := by
  cases a with
  | importScan newId input now =>
    simp only [Findings.step] at hstep
    split_ifs at hstep with hfresh
    cases hstep
    exact h.importScan hfresh now
  | decide id d =>
    cases hstep
    exact h.update _ (fun _ => rfl) (fun _ => rfl)
  | enter row =>
    simp only [Findings.step] at hstep
    split_ifs at hstep with hnew
    cases hstep
    exact h.append (fun r hr => (hnew r hr).1) (fun r hr => (hnew r hr).2)

theorem unique_of_run {digest : Text → Text} {as : List Act} {w : World}
    (hrun : run (step digest) .empty as = some w) : Unique w.rows := by
  have hempty : Unique World.empty.rows := ⟨List.nodup_nil, List.nodup_nil⟩
  have hstep : ∀ s a t, Unique s.rows → True → step digest s a = some t → Unique t.rows :=
    fun _ _ _ h _ hs => h.step hs
  exact run_keeps hstep hempty (along_true _ _ _) hrun

/-- **Findings are one per fingerprint, decisions stay, partial scans resolve nothing**, over any
history; and an import resolves only what no scope reports any more, if it misses no finding of
its scope that another scope has reported. -/
theorem findings_stay_sound (digest : Text → Text) {as : List Act} {w : World}
    (hrun : run (step digest) .empty as = some w) :
    (w.rows.map (·.fingerprint)).Nodup ∧
      ∀ newId input now w', step digest w (.importScan newId input now) = some w' →
        LeavesRest w input now w' ∧ (OneScope digest w input → ResolvesRightly w w') := by
  have h := unique_of_run hrun
  refine ⟨h.fingerprints, ?_⟩
  intro newId input now w' hstep
  exact ⟨leavesRest_importScan h hstep, resolvesRightly_importScan h hstep⟩

/-! ## Two tools -/

/-- A vulnerable package, as two tools report it. -/
def vulnerable : NormalizedFinding where
  ruleId := js "CVE-1"
  title := js "p"
  severity := .high
  category := .dependency
  location := none
  cve := some (js "CVE-1")
  package := some (js "p")
  toolFingerprint := none

/-- A full scan of one target; a new finding has the given id. -/
def scanOf (tool : ScanTool) (findings : List NormalizedFinding) (newId : Text) (now : ℤ) : Act :=
  .importScan (fun _ => newId) ⟨⟨tool, some (js "t"), none⟩, findings, true, js "s"⟩ now

/-- Both tools report the package. -/
def reportedByBoth : List Act :=
  [scanOf .trivy [vulnerable] (js "f1") 0, scanOf .osv [vulnerable] (js "f2") 1]

def vulnerablePrint : Text := fingerprint id vulnerable (some (js "t"))

/-- The first of them reports it no more, the second still does: the finding is resolved. -/
theorem reported_finding_resolved :
    ∃ w w', run (step id) .empty reportedByBoth = some w ∧
      step id w (scanOf .trivy [] (js "f3") 2) = some w' ∧
      w'.rows.map (fun r => (r.id, r.status)) = [(js "f1", .resolved)] ∧
      ¬ ResolvesRightly w w' := by
  have hrun : (run (step id) .empty reportedByBoth).bind (fun w =>
      (step id w (scanOf .trivy [] (js "f3") 2)).map fun w' =>
        (w.rows.map (fun r => (r.id, r.fingerprint, r.status)),
          w'.rows.map (fun r => (r.id, r.status)), w'.scans)) =
      some ([(js "f1", vulnerablePrint, .opened)], [(js "f1", .resolved)],
        [⟨⟨.trivy, some (js "t"), none⟩, true, []⟩,
          ⟨⟨.osv, some (js "t"), none⟩, true, [vulnerablePrint]⟩,
          ⟨⟨.trivy, some (js "t"), none⟩, true, [vulnerablePrint]⟩]) := by decide
  obtain ⟨w, hw, hstep⟩ := Option.bind_eq_some_iff.mp hrun
  obtain ⟨w', hw', heq⟩ := Option.map_eq_some_iff.mp hstep
  obtain ⟨hbefore, hrest⟩ := Prod.mk.inj heq
  obtain ⟨hafter, hscans⟩ := Prod.mk.inj hrest
  refine ⟨w, w', hw, hw', hafter, fun h => ?_⟩
  obtain ⟨r, hr, hrow⟩ := List.map_eq_singleton_iff.mp hbefore
  obtain ⟨r', hr', hrow'⟩ := List.map_eq_singleton_iff.mp hafter
  simp only [Prod.mk.injEq] at hrow hrow'
  obtain ⟨hid, hfp, hstatus⟩ := hrow
  have hstill := h r (hr ▸ List.mem_singleton_self r) r' (hr' ▸ List.mem_singleton_self r')
    (hrow'.1.trans hid.symm) (by rw [hstatus]; decide) hrow'.2 ⟨.osv, some (js "t"), none⟩
  rw [hscans, hfp] at hstill
  refine hstill ⟨_, List.mem_cons_of_mem _ List.mem_cons_self, rfl, List.mem_singleton_self _⟩ ?_
  refine ⟨_, rfl, List.mem_singleton_self _⟩

/-- One tool reports the package, then no more. -/
theorem findings_stay_sound_sample :
    ∃ w w', run (step id) .empty [scanOf .trivy [vulnerable] (js "f1") 0] = some w ∧
      step id w (scanOf .trivy [] (js "f3") 1) = some w' ∧ ResolvesRightly w w' := by
  have hsome : ((run (step id) .empty [scanOf .trivy [vulnerable] (js "f1") 0]).bind fun w =>
      step id w (scanOf .trivy [] (js "f3") 1)).isSome = true := by decide
  obtain ⟨w', hw'⟩ := Option.isSome_iff_exists.mp hsome
  obtain ⟨w, hw, hstep⟩ := Option.bind_eq_some_iff.mp hw'
  refine ⟨w, w', hw, hstep, ?_⟩
  apply ((findings_stay_sound id hw).2 _ _ _ _ hstep).2
  have hone : (run (step id) .empty [scanOf .trivy [vulnerable] (js "f1") 0]).all (fun w =>
      OneScope id w ⟨⟨.trivy, some (js "t"), none⟩, [], true, js "s"⟩) = true := by decide
  rw [hw] at hone
  simpa using hone

end Klick.Findings
