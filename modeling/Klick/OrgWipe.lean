-- The removal of an organisation (`lib/org/wipe.ts`): its objects, the sessions of its members,
-- its rows and a tombstone go through four systems one after another, while uploads
-- (`lib/evidence/store.ts`) and the clean-up of orphans (`lib/jobs/storage.ts`) go on.
import Klick.Interleaving
import Klick.Text

open Js Interleaving

namespace Klick.OrgWipe

/-- What `wipeOrganization` gives back. -/
structure WipeResult where
  filesDeleted : ℕ
  sessionsRevoked : ℕ
  deletedAt : Text
deriving DecidableEq

/-- How far a removal has come. -/
inductive Stage
  | idle
  /-- `listKeys`, with the keys that were there at its start, and those of the pages so far. -/
  | listing (since keys : List Text)
  /-- `deleteObjects`, with the keys of the chunks to come, and the count so far. -/
  | deleting (rest : List Text) (deleted : ℕ)
  | revoking (filesDeleted : ℕ)
  | removing (filesDeleted sessionsRevoked : ℕ)
  /-- The organisation is gone. -/
  | marking (result : WipeResult)
  | returned (result : WipeResult)
  | thrown
deriving DecidableEq

/-- `storeEncryptedEvidence`: the settings were read, or the object is put and the row is not. -/
inductive Upload
  | begun (storageKey : Text)
  | stored (storageKey : Text)
deriving DecidableEq

/-- The tombstone of an organisation. -/
structure Tombstone where
  deletedAt : Text
deriving DecidableEq

structure World where
  /-- The object storage is configured. -/
  s3 : Bool
  /-- The row of the organisation is there, with its settings. -/
  organization : Bool
  /-- The storage keys of its evidence rows. -/
  rows : List Text
  /-- The keys of the objects under its prefix. -/
  objects : List Text
  uploads : List Upload
  stage : Stage
  tombstone : Option Tombstone
  /-- The keys that removals have deleted so far. -/
  gone : List Text
deriving DecidableEq

/-- `DeleteObjects` takes a thousand keys at a time. -/
def chunkSize : ℕ := 1000

inductive Act
  /-- A call of `wipeOrganization`. -/
  | wipe
  /-- A page of the listing. -/
  | page (keys : List Text)
  | listed
  /-- A chunk is deleted, but for the keys with errors. -/
  | deleteChunk (errors : List Text)
  | revoke (sessions : ℕ)
  | deleteOrganization (deletedAt : Text)
  | writeTombstone (ok : Bool)
  /-- A step throws; of a chunk, some keys may be deleted. -/
  | throw (deleted : List Text)
  | beginUpload (storageKey : Text)
  | putBytes (n : ℕ)
  | commitUpload (n : ℕ)
  | failUpload (n : ℕ)
  /-- Objects without a row that the clean-up has found and purged. -/
  | purge (keys : List Text)

/-- The removal goes on to the sessions when no chunk is left. -/
def afterChunk (rest : List Text) (deleted : ℕ) : Stage :=
  if rest = [] then .revoking deleted else .deleting rest deleted

def Upload.storageKey : Upload → Text
  | .begun key => key
  | .stored key => key

def World.without (w : World) (keys : List Text) : World :=
  { w with objects := w.objects.filter (· ∉ keys), gone := w.gone ++ keys }

/-- A step of the removal. -/
def stepWipe (w : World) : Act → Option World
  | .wipe =>
    if w.organization = true ∧ (w.stage = .idle ∨ w.stage = .thrown) then
      some { w with stage := if w.s3 then .listing w.objects [] else .revoking 0 }
    else none
  | .page keys =>
    match w.stage with
    | .listing since listed =>
      if ∀ k ∈ keys, k ∈ w.objects then
        some { w with stage := .listing since (listed ++ keys) }
      else none
    | _ => none
  | .listed =>
    match w.stage with
    | .listing since listed =>
      -- a key that is there all the time is on some page
      if ∀ k ∈ since, k ∈ w.objects → k ∈ listed then
        some { w with stage := afterChunk listed 0 }
      else none
    | _ => none
  | .deleteChunk errors =>
    match w.stage with
    | .deleting rest deleted =>
      let chunk := rest.take chunkSize
      if ∀ k ∈ errors, k ∈ chunk then
        some { w.without (chunk.filter (· ∉ errors)) with
          stage := afterChunk (rest.drop chunkSize) (deleted + (chunk.length - errors.length)) }
      else none
    | _ => none
  | .revoke sessions =>
    match w.stage with
    | .revoking files => some { w with stage := .removing files sessions }
    | _ => none
  | .deleteOrganization deletedAt =>
    match w.stage with
    | .removing files sessions =>
      let result : WipeResult := ⟨files, sessions, deletedAt⟩
      some { w with
        organization := false
        rows := []
        stage := if w.s3 then .marking result else .returned result }
    | _ => none
  | .writeTombstone ok =>
    match w.stage with
    | .marking result =>
      some { w with
        -- a failure is logged
        tombstone := if ok then some ⟨result.deletedAt⟩ else w.tombstone
        stage := .returned result }
    | _ => none
  | .throw deleted =>
    match w.stage with
    | .listing _ _ => if deleted = [] then some { w with stage := .thrown } else none
    | .deleting rest _ =>
      if ∀ k ∈ deleted, k ∈ rest.take chunkSize then
        some { w.without deleted with stage := .thrown }
      else none
    | .revoking _ => if deleted = [] then some { w with stage := .thrown } else none
    | .removing _ _ => if deleted = [] then some { w with stage := .thrown } else none
    | _ => none
  | _ => none

/-- A step of an upload or of the clean-up. -/
def stepOther (w : World) : Act → Option World
  | .beginUpload key =>
    -- without the settings of the organisation, an upload throws; a new key is random
    if w.s3 = true ∧ w.organization = true ∧ key ∉ w.objects ∧ key ∉ w.rows ∧ key ∉ w.gone ∧
        key ∉ w.uploads.map (·.storageKey) then
      some { w with uploads := w.uploads ++ [.begun key] }
    else none
  | .putBytes n =>
    match w.uploads[n]? with
    | some (.begun key) =>
      some { w with objects := w.objects ++ [key], uploads := w.uploads.set n (.stored key) }
    | _ => none
  | .commitUpload n =>
    match w.uploads[n]? with
    | some (.stored key) =>
      -- the row refers to the organisation
      if w.organization then
        some { w with rows := w.rows ++ [key], uploads := w.uploads.eraseIdx n }
      else none
    | _ => none
  | .failUpload n => (w.uploads[n]?).map fun _ => { w with uploads := w.uploads.eraseIdx n }
  | .purge keys =>
    -- the job visits the organisations that exist
    if w.organization = true ∧ (∀ k ∈ keys, k ∉ w.rows) ∧
        ∀ k ∈ keys, k ∉ w.uploads.map (·.storageKey) then
      some { w with objects := w.objects.filter (· ∉ keys) }
    else none
  | _ => none

def step (w : World) (a : Act) : Option World := stepWipe w a <|> stepOther w a

/-! ## The rule -/

/-- A removal that throws has left the organisation with an object for each row; one that returns
has left no object and a tombstone. -/
structure AllOrNothing (w : World) : Prop where
  thrown : w.stage = .thrown → w.organization = true ∧ ∀ k ∈ w.rows, k ∈ w.objects
  returned : ∀ result, w.stage = .returned result →
    w.objects = [] ∧ w.tombstone = some ⟨result.deletedAt⟩

/-- A removal that is not past its listing, or has thrown. -/
def Stage.spares : Stage → Bool
  | .idle => true
  | .listing _ _ => true
  | .thrown => true
  | _ => false

/-- The storage is configured; the listing has every object; nothing is put behind it; no deletion
is refused; no step throws once an object of a row or of an upload is deleted; and the tombstone
is written. -/
def Undisturbed (w : World) : Act → Prop
  | .wipe => w.s3 = true
  | .listed => ∀ since keys, w.stage = .listing since keys → ∀ k ∈ w.objects, k ∈ keys
  | .deleteChunk errors => errors = []
  | .throw deleted => ∀ k ∈ w.gone ++ deleted,
      k ∉ w.rows ∧ k ∉ w.uploads.map (·.storageKey)
  | .writeTombstone ok => ok = true
  | .putBytes _ => w.stage.spares = true
  | _ => True

/-- An organisation with an object for each row, and nothing under way. -/
structure World.Ready (w : World) : Prop where
  organization : w.organization = true
  rows : ∀ k ∈ w.rows, k ∈ w.objects
  uploads : w.uploads = []
  stage : w.stage = .idle
  gone : w.gone = []

instance (w : World) (a : Act) : Decidable (Undisturbed w a) := by
  cases a with
  | listed =>
    unfold Undisturbed
    cases hstage : w.stage with
    | listing since keys =>
      exact decidable_of_iff (∀ k ∈ w.objects, k ∈ keys)
        ⟨fun h _ _ heq => by cases heq; exact h, fun h => h since keys rfl⟩
    | _ => exact .isTrue (fun _ _ heq => nomatch heq)
  | _ =>
    unfold Undisturbed
    infer_instance

/-! ## What holds along a run -/

/-- What holds at each stage. -/
def AtStage (w : World) : Prop :=
  match w.stage with
  | .idle => w.organization = true ∧
      ∀ k ∈ w.gone, k ∉ w.rows ∧ k ∉ w.uploads.map (·.storageKey)
  | .listing _ _ => w.organization = true ∧ w.s3 = true
  | .deleting rest _ => w.organization = true ∧ w.s3 = true ∧ ∀ k ∈ w.objects, k ∈ rest
  | .revoking _ => w.organization = true ∧ w.s3 = true ∧ w.objects = []
  | .removing _ _ => w.organization = true ∧ w.s3 = true ∧ w.objects = []
  | .marking _ => w.organization = false ∧ w.objects = []
  | .returned result => w.organization = false ∧ w.objects = [] ∧
      w.tombstone = some ⟨result.deletedAt⟩
  | .thrown => w.organization = true ∧
      ∀ k ∈ w.gone, k ∉ w.rows ∧ k ∉ w.uploads.map (·.storageKey)

structure Inv (w : World) : Prop where
  rows : ∀ k ∈ w.rows, k ∈ w.objects ∨ k ∈ w.gone
  stored : ∀ k, .stored k ∈ w.uploads → k ∈ w.objects ∨ k ∈ w.gone
  atStage : AtStage w

theorem Inv.allOrNothing {w : World} (h : Inv w) : AllOrNothing w := by
  have hat := h.atStage
  unfold AtStage at hat
  constructor
  · intro hstage
    rw [hstage] at hat
    refine ⟨hat.1, ?_⟩
    intro k hk
    rcases h.rows k hk with hobject | hgone
    · exact hobject
    · exact absurd hk (hat.2 k hgone).1
  · intro result hstage
    rw [hstage] at hat
    exact hat.2

theorem World.Ready.inv {w : World} (h : w.Ready) : Inv w where
  rows k hk := .inl (h.rows k hk)
  stored k hk := by
    rw [h.uploads] at hk
    cases hk
  atStage := by
    unfold AtStage
    rw [h.stage]
    refine ⟨h.organization, ?_⟩
    rw [h.gone]
    exact fun _ hk => nomatch hk

/-- Keys that are deleted are gone. -/
theorem without_kept {w : World} {keys : List Text} {k : Text}
    (h : k ∈ w.objects ∨ k ∈ w.gone) :
    k ∈ (w.without keys).objects ∨ k ∈ (w.without keys).gone := by
  unfold World.without
  by_cases hk : k ∈ keys
  · exact .inr (List.mem_append_right _ hk)
  · rcases h with h | h
    · exact .inl (List.mem_filter.mpr ⟨h, by simpa using hk⟩)
    · exact .inr (List.mem_append_left _ h)

/-- The stage behind a chunk: there is nothing left, or it is in the chunks to come. -/
theorem atStage_afterChunk {w : World} {rest : List Text} {deleted : ℕ}
    (horg : w.organization = true) (hs3 : w.s3 = true) (hrest : ∀ k ∈ w.objects, k ∈ rest) :
    AtStage { w with stage := afterChunk rest deleted } := by
  unfold afterChunk
  split_ifs with hnil
  · refine ⟨horg, hs3, ?_⟩
    apply List.eq_nil_iff_forall_not_mem.mpr
    intro k hk
    have hmem := hrest k hk
    rw [hnil] at hmem
    cases hmem
  · exact ⟨horg, hs3, hrest⟩

/-- A step of the removal that changes the stage only. -/
theorem Inv.move {w : World} (h : Inv w) {stage : Stage} (hat : AtStage { w with stage }) :
    Inv { w with stage } := ⟨h.rows, h.stored, hat⟩

/-- A removal that has thrown. -/
theorem Inv.throw {w : World} (h : Inv w) {deleted : List Text} (horg : w.organization = true)
    (hok : Undisturbed w (.throw deleted)) : Inv { w.without deleted with stage := .thrown } where
  rows k hk := without_kept (h.rows k hk)
  stored k hk := without_kept (h.stored k hk)
  atStage := ⟨horg, hok⟩

theorem without_nil (w : World) : w.without [] = w := by
  simp [World.without]

theorem Inv.stepWipe {w w' : World} {a : Act} (h : Inv w) (hok : Undisturbed w a)
    (hstep : stepWipe w a = some w') : Inv w' := by
  have hat := h.atStage
  unfold AtStage at hat
  cases a with
  | wipe =>
    unfold OrgWipe.stepWipe at hstep
    dsimp only at hstep
    have hs3 : w.s3 = true := hok
    rw [if_pos hs3] at hstep
    split_ifs at hstep with horg
    cases hstep
    exact h.move ⟨horg.1, hs3⟩
  | page keys =>
    unfold OrgWipe.stepWipe at hstep
    cases hstage : w.stage with
    | listing since listed =>
      rw [hstage] at hstep hat
      dsimp only at hstep
      split_ifs at hstep
      cases hstep
      exact h.move hat
    | _ => rw [hstage] at hstep; cases hstep
  | listed =>
    unfold OrgWipe.stepWipe at hstep
    cases hstage : w.stage with
    | listing since listed =>
      rw [hstage] at hstep hat
      dsimp only at hstep
      split_ifs at hstep
      cases hstep
      exact h.move (atStage_afterChunk hat.1 hat.2 (hok since listed hstage))
    | _ => rw [hstage] at hstep; cases hstep
  | deleteChunk errors =>
    have herrors : errors = [] := hok
    subst herrors
    unfold OrgWipe.stepWipe at hstep
    cases hstage : w.stage with
    | deleting rest deleted =>
      rw [hstage] at hstep hat
      dsimp only at hstep
      split_ifs at hstep
      cases hstep
      refine ⟨fun k hk => without_kept (h.rows k hk), fun k hk => without_kept (h.stored k hk), ?_⟩
      apply atStage_afterChunk (w := w.without _) hat.1 hat.2.1
      intro k hk
      obtain ⟨hk, hnot⟩ := List.mem_filter.mp hk
      have hrest := hat.2.2 k hk
      rw [← List.take_append_drop chunkSize rest, List.mem_append] at hrest
      rcases hrest with hchunk | hrest
      · simp [hchunk] at hnot
      · exact hrest
    | _ => rw [hstage] at hstep; cases hstep
  | revoke sessions =>
    unfold OrgWipe.stepWipe at hstep
    cases hstage : w.stage with
    | revoking files =>
      rw [hstage] at hstep hat
      cases hstep
      exact h.move hat
    | _ => rw [hstage] at hstep; cases hstep
  | deleteOrganization deletedAt =>
    unfold OrgWipe.stepWipe at hstep
    cases hstage : w.stage with
    | removing files sessions =>
      rw [hstage] at hstep hat
      dsimp only at hstep
      rw [hat.2.1, if_pos rfl] at hstep
      cases hstep
      exact ⟨fun k hk => (nomatch hk), h.stored, rfl, hat.2.2⟩
    | _ => rw [hstage] at hstep; cases hstep
  | writeTombstone ok =>
    have hok : ok = true := hok
    subst hok
    unfold OrgWipe.stepWipe at hstep
    cases hstage : w.stage with
    | marking result =>
      rw [hstage] at hstep hat
      cases hstep
      exact ⟨h.rows, h.stored, hat.1, hat.2, rfl⟩
    | _ => rw [hstage] at hstep; cases hstep
  | throw deleted =>
    unfold OrgWipe.stepWipe at hstep
    cases hstage : w.stage with
    | listing since listed =>
      rw [hstage] at hstep hat
      dsimp only at hstep
      split_ifs at hstep with hnil
      cases hstep
      have hthrow := h.throw hat.1 hok
      rwa [hnil, without_nil] at hthrow
    | deleting rest deleted =>
      rw [hstage] at hstep hat
      dsimp only at hstep
      split_ifs at hstep
      cases hstep
      exact h.throw hat.1 hok
    | revoking files =>
      rw [hstage] at hstep hat
      dsimp only at hstep
      split_ifs at hstep with hnil
      cases hstep
      have hthrow := h.throw hat.1 hok
      rwa [hnil, without_nil] at hthrow
    | removing files sessions =>
      rw [hstage] at hstep hat
      dsimp only at hstep
      split_ifs at hstep with hnil
      cases hstep
      have hthrow := h.throw hat.1 hok
      rwa [hnil, without_nil] at hthrow
    | _ => rw [hstage] at hstep; cases hstep
  | _ => cases hstep

/-! ## Uploads -/

/-- The stage of a removal is the same, with the same organisation and tombstone; there is no new
object while it deletes, and no new key of a row or an upload that it has deleted. -/
theorem AtStage.of_other {w w' : World} (h : AtStage w) (hstage : w'.stage = w.stage)
    (horg : w'.organization = w.organization) (hs3 : w'.s3 = w.s3)
    (htombstone : w'.tombstone = w.tombstone)
    (hobjects : w.stage.spares = false → ∀ k ∈ w'.objects, k ∈ w.objects)
    (hgone : w'.gone = w.gone)
    (hkeys : (∀ k ∈ w.gone, k ∉ w.rows ∧ k ∉ w.uploads.map (·.storageKey)) →
      ∀ k ∈ w.gone, k ∉ w'.rows ∧ k ∉ w'.uploads.map (·.storageKey)) : AtStage w' := by
  have hempty : w.stage.spares = false → w.objects = [] → w'.objects = [] := by
    intro hspares hnil
    apply List.eq_nil_iff_forall_not_mem.mpr
    intro k hk
    have hmem := hobjects hspares k hk
    rw [hnil] at hmem
    cases hmem
  unfold AtStage at h ⊢
  rw [hstage, horg, hs3, htombstone, hgone]
  cases hs : w.stage with
  | idle =>
    rw [hs] at h
    exact ⟨h.1, hkeys h.2⟩
  | listing since keys =>
    rw [hs] at h
    exact h
  | deleting rest deleted =>
    rw [hs] at h hobjects
    exact ⟨h.1, h.2.1, fun k hk => h.2.2 k (hobjects rfl k hk)⟩
  | revoking files =>
    rw [hs] at h hempty
    exact ⟨h.1, h.2.1, hempty rfl h.2.2⟩
  | removing files sessions =>
    rw [hs] at h hempty
    exact ⟨h.1, h.2.1, hempty rfl h.2.2⟩
  | marking result =>
    rw [hs] at h hempty
    exact ⟨h.1, hempty rfl h.2⟩
  | returned result =>
    rw [hs] at h hempty
    exact ⟨h.1, hempty rfl h.2.1, h.2.2⟩
  | thrown =>
    rw [hs] at h
    exact ⟨h.1, hkeys h.2⟩

theorem Inv.stepOther {w w' : World} {a : Act} (h : Inv w) (hok : Undisturbed w a)
    (hstep : stepOther w a = some w') : Inv w' := by
  cases a with
  | beginUpload key =>
    unfold OrgWipe.stepOther at hstep
    dsimp only at hstep
    split_ifs at hstep with hfresh
    cases hstep
    obtain ⟨-, -, -, -, hgone, -⟩ := hfresh
    refine ⟨h.rows, ?_, h.atStage.of_other rfl rfl rfl rfl (fun _ _ hk => hk) rfl ?_⟩
    · intro k hk
      rcases List.mem_append.mp hk with hk | hk
      · exact h.stored k hk
      · cases List.mem_singleton.mp hk
    · intro hkeys k hk
      refine ⟨(hkeys k hk).1, ?_⟩
      rw [List.map_append, List.mem_append]
      rintro (hmem | hmem)
      · exact (hkeys k hk).2 hmem
      · obtain rfl : k = key := List.mem_singleton.mp hmem
        exact hgone hk
  | putBytes n =>
    have hspares : w.stage.spares = true := hok
    unfold OrgWipe.stepOther at hstep
    dsimp only at hstep
    cases hget : w.uploads[n]? with
    | none => rw [hget] at hstep; cases hstep
    | some u =>
      rw [hget] at hstep
      cases u with
      | stored key => cases hstep
      | begun key =>
        cases hstep
        refine ⟨?_, ?_, h.atStage.of_other rfl rfl rfl rfl ?_ rfl ?_⟩
        · intro k hk
          exact (h.rows k hk).imp_left (List.mem_append_left _)
        · intro k hk
          rcases List.mem_or_eq_of_mem_set hk with hk | hk
          · exact (h.stored k hk).imp_left (List.mem_append_left _)
          · cases hk
            exact .inl (List.mem_append_right _ List.mem_cons_self)
        · intro hnot
          rw [hspares] at hnot
          cases hnot
        · intro hkeys k hk
          refine ⟨(hkeys k hk).1, ?_⟩
          rw [List.map_set]
          intro hmem
          rcases List.mem_or_eq_of_mem_set hmem with hmem | rfl
          · exact (hkeys k hk).2 hmem
          · exact (hkeys _ hk).2 (List.mem_map_of_mem (List.mem_of_getElem? hget))
  | commitUpload n =>
    unfold OrgWipe.stepOther at hstep
    dsimp only at hstep
    cases hget : w.uploads[n]? with
    | none => rw [hget] at hstep; cases hstep
    | some u =>
      rw [hget] at hstep
      cases u with
      | begun key => cases hstep
      | stored key =>
        dsimp only at hstep
        split_ifs at hstep
        cases hstep
        have hmem := List.mem_of_getElem? hget
        refine ⟨?_, ?_, h.atStage.of_other rfl rfl rfl rfl (fun _ _ hk => hk) rfl ?_⟩
        · intro k hk
          rcases List.mem_append.mp hk with hk | hk
          · exact h.rows k hk
          · rw [List.mem_singleton.mp hk]
            exact h.stored key hmem
        · exact fun k hk => h.stored k (List.mem_of_mem_eraseIdx hk)
        · intro hkeys k hk
          constructor
          · intro hrow
            rcases List.mem_append.mp hrow with hrow | hrow
            · exact (hkeys k hk).1 hrow
            · rw [List.mem_singleton.mp hrow] at hk
              exact (hkeys _ hk).2 (List.mem_map_of_mem hmem)
          · intro hupload
            obtain ⟨u, hu, rfl⟩ := List.mem_map.mp hupload
            exact (hkeys _ hk).2 (List.mem_map_of_mem (List.mem_of_mem_eraseIdx hu))
  | failUpload n =>
    unfold OrgWipe.stepOther at hstep
    dsimp only at hstep
    obtain ⟨u, -, rfl⟩ := Option.map_eq_some_iff.mp hstep
    refine ⟨h.rows, fun k hk => h.stored k (List.mem_of_mem_eraseIdx hk),
      h.atStage.of_other rfl rfl rfl rfl (fun _ _ hk => hk) rfl ?_⟩
    intro hkeys k hk
    refine ⟨(hkeys k hk).1, ?_⟩
    intro hupload
    obtain ⟨u, hu, rfl⟩ := List.mem_map.mp hupload
    exact (hkeys _ hk).2 (List.mem_map_of_mem (List.mem_of_mem_eraseIdx hu))
  | purge keys =>
    unfold OrgWipe.stepOther at hstep
    dsimp only at hstep
    split_ifs at hstep with hfree
    cases hstep
    obtain ⟨-, hrows, huploads⟩ := hfree
    have hkept : ∀ k, k ∉ keys → k ∈ w.objects ∨ k ∈ w.gone →
        k ∈ w.objects.filter (· ∉ keys) ∨ k ∈ w.gone := by
      intro k hk hmem
      refine hmem.imp_left fun hobject => List.mem_filter.mpr ⟨hobject, by simpa using hk⟩
    refine ⟨?_, ?_, h.atStage.of_other rfl rfl rfl rfl ?_ rfl (fun hkeys => hkeys)⟩
    · intro k hk
      exact hkept k (fun hmem => hrows k hmem hk) (h.rows k hk)
    · intro k hk
      refine hkept k (fun hmem => huploads k hmem ?_) (h.stored k hk)
      exact List.mem_map_of_mem (f := Upload.storageKey) hk
    · exact fun _ k hk => (List.mem_filter.mp hk).1
  | _ => cases hstep

/-- An organisation with one file. -/
def sampleOrg : World where
  s3 := true
  organization := true
  rows := [js "k"]
  objects := [js "k"]
  uploads := []
  stage := .idle
  tombstone := none
  gone := []

theorem ready_sampleOrg : sampleOrg.Ready where
  organization := rfl
  rows _ hk := hk
  uploads := rfl
  stage := rfl
  gone := rfl

/-- The removal of the organisation, with what the storage answers to the deletion of its file. -/
def sampleWipe (errors : List Text) : List Act := [
  .wipe, .page [js "k"], .listed, .deleteChunk errors, .revoke 2, .deleteOrganization (js "now"),
  .writeTombstone true]

end Klick.OrgWipe
