-- Versions of a document (`lib/documents/versions.ts`): a published version is in force until
-- the next one is published or it is retired, whichever is first. The rows are those of the
-- storage; what is destroyed rests on the end of this time (`lib/documents/retention.ts`).
import Klick.OrderedMap
import Klick.StorageCleanup

open Js

namespace Klick.Storage

/-! ## Ranges -/

structure ValidRange where
  from_ : ℤ
  until_ : Option ℤ
deriving DecidableEq, Repr

/-- The time of a version, with those that were published after it. -/
def rangeOf (v : VersionRow) (later : List VersionRow) : ValidRange :=
  ⟨v.publishedAt.getD 0, (later.head?.bind (·.publishedAt)).merge min v.retiredAt⟩

/-- The entries that `validRanges` sets, in the order of publication. -/
def ranges : List VersionRow → List (Text × ValidRange)
  | [] => []
  | v :: later => (v.id, rangeOf v later) :: ranges later

def validRanges (versions : List VersionRow) : OrderedMap Text ValidRange :=
  (ranges (published versions)).foldl (fun out e => out.set e.1 e.2) .empty

/-- The time holds the instant. -/
def ValidRange.holds (r : ValidRange) (t : ℤ) : Bool := r.from_ ≤ t && r.until_.all (t < ·)

def currentPublished (versions : List VersionRow) (asOf : ℤ) : Option VersionRow :=
  let out := validRanges versions
  versions.find? fun v => (out.get v.id).any (·.holds asOf)

def validInPeriod (versions : List VersionRow) (from_ to_ : ℤ) : List VersionRow :=
  let out := validRanges versions
  versions.filter fun v => (out.get v.id).any fun r => r.from_ ≤ to_ && r.until_.all (from_ < ·)

/-! ## The order of publication -/

theorem mem_published {versions : List VersionRow} {v : VersionRow} :
    v ∈ published versions ↔ v ∈ versions ∧ v.publishedAt.isSome = true := by
  simp [published]

theorem published_sorted (versions : List VersionRow) :
    (published versions).Pairwise fun v w => v.publishedAt.getD 0 ≤ w.publishedAt.getD 0 :=
  List.pairwise_insertionSort _ _

theorem published_ids_nodup {versions : List VersionRow} (h : (versions.map (·.id)).Nodup) :
    ((published versions).map (·.id)).Nodup := by
  have hperm := (List.perm_insertionSort (fun a b : VersionRow =>
    a.publishedAt.getD 0 ≤ b.publishedAt.getD 0)
    (versions.filter fun v => v.publishedAt.isSome)).map (·.id)
  exact hperm.nodup_iff.mpr (h.sublist (List.filter_sublist.map _))

theorem map_fst_ranges (list : List VersionRow) : (ranges list).map Prod.fst = list.map (·.id) := by
  induction list with
  | nil => rfl
  | cons v later ih => simp [ranges, ih]

/-! ## What the map of ranges holds -/

section Fill

variable {K V : Type} [DecidableEq K]

theorem get_fill_of_not_mem {es : List (K × V)} {k : K} (h : k ∉ es.map Prod.fst)
    (m : OrderedMap K V) : (es.foldl (fun out e => out.set e.1 e.2) m).get k = m.get k := by
  induction es generalizing m with
  | nil => rfl
  | cons e es ih =>
    simp only [List.map_cons, List.mem_cons, not_or] at h
    rw [List.foldl_cons, ih h.2, OrderedMap.get_set_of_ne _ h.1]

theorem get_fill {es : List (K × V)} (hd : (es.map Prod.fst).Nodup) {k : K} {v : V}
    (h : (k, v) ∈ es) (m : OrderedMap K V) :
    (es.foldl (fun out e => out.set e.1 e.2) m).get k = some v := by
  induction es generalizing m with
  | nil => cases h
  | cons e es ih =>
    rw [List.map_cons, List.nodup_cons] at hd
    rw [List.foldl_cons]
    rcases List.mem_cons.mp h with rfl | h
    · rw [get_fill_of_not_mem hd.1, OrderedMap.get_set_self]
    · exact ih hd.2 h _

end Fill

theorem mem_ranges {list : List VersionRow} {k : Text} {r : ValidRange} :
    (k, r) ∈ ranges list ↔
      ∃ earlier v later, list = earlier ++ v :: later ∧ v.id = k ∧ rangeOf v later = r := by
  induction list with
  | nil => simp [ranges]
  | cons w list ih =>
    rw [ranges, List.mem_cons, ih]
    constructor
    · rintro (h | ⟨earlier, v, later, rfl, hv⟩)
      · cases h
        exact ⟨[], w, list, rfl, rfl, rfl⟩
      · exact ⟨w :: earlier, v, later, rfl, hv⟩
    · rintro ⟨earlier, v, later, hlist, rfl, rfl⟩
      cases earlier with
      | nil =>
        cases hlist
        exact .inl rfl
      | cons u earlier =>
        obtain ⟨rfl, rfl⟩ := List.cons.inj hlist
        exact .inr ⟨earlier, v, later, rfl, rfl, rfl⟩

/-- A version stands between those that were published before it and those after it. -/
def Stands (versions : List VersionRow) (v : VersionRow) (later : List VersionRow) : Prop :=
  ∃ earlier, published versions = earlier ++ v :: later

theorem get_validRanges {versions : List VersionRow} (hids : (versions.map (·.id)).Nodup)
    {v : VersionRow} (hv : v ∈ versions) {r : ValidRange} :
    (validRanges versions).get v.id = some r ↔
      ∃ later, Stands versions v later ∧ rangeOf v later = r := by
  have hkeys : ((ranges (published versions)).map Prod.fst).Nodup := by
    rw [map_fst_ranges]
    exact published_ids_nodup hids
  have hsame : ∀ u ∈ published versions, u.id = v.id → u = v := fun u hu heq =>
    List.inj_on_of_nodup_map hids (mem_published.mp hu).1 hv heq
  unfold validRanges
  constructor
  · intro hget
    by_cases hin : v.id ∈ (ranges (published versions)).map Prod.fst
    · obtain ⟨⟨k, r'⟩, hmem, rfl⟩ := List.mem_map.mp hin
      rw [get_fill hkeys hmem] at hget
      cases hget
      obtain ⟨earlier, u, later, hlist, hid, hr⟩ := mem_ranges.mp hmem
      have huv := hsame u (by rw [hlist]; simp) hid
      subst huv
      exact ⟨later, ⟨earlier, hlist⟩, hr⟩
    · rw [get_fill_of_not_mem hin] at hget
      cases hget
  · rintro ⟨later, ⟨earlier, hlist⟩, hr⟩
    exact get_fill hkeys (mem_ranges.mpr ⟨earlier, v, later, hlist, rfl, hr⟩) _

/-! ## The version in force -/

/-- The version published last at or before an instant. -/
def lastPublished (versions : List VersionRow) (t : ℤ) : Option VersionRow :=
  ((published versions).filter fun v => v.publishedAt.getD 0 ≤ t).getLast?

theorem lastPublished_eq_some {versions : List VersionRow} {t : ℤ} {v : VersionRow} :
    lastPublished versions t = some v ↔
      ∃ later, Stands versions v later ∧ v.publishedAt.getD 0 ≤ t ∧
        ∀ w ∈ later, t < w.publishedAt.getD 0 := by
  unfold lastPublished Stands
  have hsorted := published_sorted versions
  generalize published versions = list at hsorted ⊢
  constructor
  · intro h
    obtain ⟨front, hfront⟩ := List.getLast?_eq_some_iff.mp h
    obtain ⟨earlier, rest, rfl, -, hrest⟩ := List.filter_eq_append_iff.mp hfront
    obtain ⟨skipped, later, rfl, -, hv, hlater⟩ := List.filter_eq_cons_iff.mp hrest
    refine ⟨later, ⟨earlier ++ skipped, by simp⟩, of_decide_eq_true hv, fun w hw => ?_⟩
    have := List.filter_eq_nil_iff.mp hlater w hw
    simpa using this
  · rintro ⟨later, ⟨earlier, rfl⟩, hv, hlater⟩
    have hnone : later.filter (fun w => w.publishedAt.getD 0 ≤ t) = [] := by
      rw [List.filter_eq_nil_iff]
      intro w hw
      simpa using hlater w hw
    rw [List.filter_append, List.filter_cons_of_pos (by simpa using hv), hnone]
    simp

theorem all_merge_min (a b : Option ℤ) (t : ℤ) :
    (a.merge min b).all (t < ·) = (a.all (t < ·) && b.all (t < ·)) := by
  cases a <;> cases b <;> simp [Option.merge]

/-- The publications behind a version are after an instant if the next one is. -/
theorem all_next {versions : List VersionRow} {v : VersionRow} {later : List VersionRow}
    (h : Stands versions v later) (t : ℤ) :
    (later.head?.bind (·.publishedAt)).all (t < ·) = true ↔
      ∀ w ∈ later, t < w.publishedAt.getD 0 := by
  obtain ⟨earlier, hlist⟩ := h
  have hsorted := published_sorted versions
  rw [hlist] at hsorted
  have hlater := (List.pairwise_cons.mp (List.pairwise_append.mp hsorted).2.1).2
  have hsome : ∀ w ∈ later, w.publishedAt.isSome = true := fun w hw =>
    (mem_published.mp (by rw [hlist]; simp [hw] : w ∈ published versions)).2
  cases later with
  | nil => simp
  | cons w rest =>
    obtain ⟨p, hp⟩ := Option.isSome_iff_exists.mp (hsome w List.mem_cons_self)
    have hrest := (List.pairwise_cons.mp hlater).1
    simp only [List.head?_cons, Option.bind_some, hp, Option.all_some, decide_eq_true_eq,
      List.forall_mem_cons, Option.getD_some, iff_self_and] at hrest ⊢
    intro ht u hu
    exact lt_of_lt_of_le ht (hrest u hu)

theorem holds_rangeOf {versions : List VersionRow} {v : VersionRow} {later : List VersionRow}
    (h : Stands versions v later) (t : ℤ) :
    (rangeOf v later).holds t = true ↔ v.publishedAt.getD 0 ≤ t ∧
      (∀ w ∈ later, t < w.publishedAt.getD 0) ∧ v.retiredAt.all (t < ·) = true := by
  unfold ValidRange.holds rangeOf
  rw [Bool.and_eq_true, decide_eq_true_eq, all_merge_min, Bool.and_eq_true, all_next h]

/-- In force: published last, and not retired. -/
theorem holds_iff {versions : List VersionRow} (hids : (versions.map (·.id)).Nodup)
    {v : VersionRow} (hv : v ∈ versions) (t : ℤ) :
    ((validRanges versions).get v.id).any (·.holds t) = true ↔
      lastPublished versions t = some v ∧ v.retiredAt.all (t < ·) = true := by
  rw [Option.any_eq_true, lastPublished_eq_some]
  constructor
  · rintro ⟨r, hr, hholds⟩
    obtain ⟨later, hstands, rfl⟩ := (get_validRanges hids hv).mp hr
    obtain ⟨hfrom, hlater, hretired⟩ := (holds_rangeOf hstands t).mp hholds
    exact ⟨⟨later, hstands, hfrom, hlater⟩, hretired⟩
  · rintro ⟨⟨later, hstands, hfrom, hlater⟩, hretired⟩
    exact ⟨rangeOf v later, (get_validRanges hids hv).mpr ⟨later, hstands, rfl⟩,
      (holds_rangeOf hstands t).mpr ⟨hfrom, hlater, hretired⟩⟩

theorem mem_of_lastPublished {versions : List VersionRow} {t : ℤ} {v : VersionRow}
    (h : lastPublished versions t = some v) : v ∈ versions := by
  obtain ⟨later, ⟨earlier, hlist⟩, -⟩ := lastPublished_eq_some.mp h
  exact (mem_published.mp (by rw [hlist]; simp : v ∈ published versions)).1

/-- The version that was published last, unless it was retired. -/
theorem currentPublished_eq {versions : List VersionRow} (hids : (versions.map (·.id)).Nodup)
    (t : ℤ) : currentPublished versions t =
      (lastPublished versions t).filter fun v => v.retiredAt.all (t < ·) := by
  unfold currentPublished
  apply Option.ext
  intro v
  rw [Option.filter_eq_some_iff]
  constructor
  · intro h
    have hv := List.mem_of_find?_eq_some h
    exact (holds_iff hids hv t).mp
      (List.find?_some (p := fun u : VersionRow => ((validRanges versions).get u.id).any (·.holds t)) h)
  · intro h
    have hv := mem_of_lastPublished h.1
    cases hfind : versions.find? fun u => ((validRanges versions).get u.id).any (·.holds t) with
    | none => exact absurd ((holds_iff hids hv t).mpr h) (List.find?_eq_none.mp hfind v hv)
    | some u =>
      have hu := (holds_iff hids (List.mem_of_find?_eq_some hfind) t).mp
        (List.find?_some (p := fun u : VersionRow => ((validRanges versions).get u.id).any (·.holds t)) hfind)
      exact hu.1.symm.trans h.1

/-! ## Versions of a period -/

/-- A version that was in force at some instant of a period. -/
def InForceWithin (versions : List VersionRow) (from_ to_ : ℤ) (v : VersionRow) : Prop :=
  ∃ t, from_ ≤ t ∧ t ≤ to_ ∧ currentPublished versions t = some v

/-- No version was published after a version and at or before an instant, nor was it retired
by then. -/
def EndsAfter (versions : List VersionRow) (v : VersionRow) (t : ℤ) : Prop :=
  ∃ later, Stands versions v later ∧ (∀ w ∈ later, t < w.publishedAt.getD 0) ∧
    v.retiredAt.all (t < ·) = true

/-- A version that was published by the end of the period and ends after its beginning ends
after its own publication, and the period does not end before it begins. -/
def NoEmptyRange (versions : List VersionRow) (from_ to_ : ℤ) : Prop :=
  ∀ v ∈ versions, ∀ p, v.publishedAt = some p → p ≤ to_ → EndsAfter versions v from_ →
    from_ ≤ to_ ∧ EndsAfter versions v p

theorem EndsAfter.earlier {versions : List VersionRow} {v : VersionRow} {s t : ℤ}
    (h : EndsAfter versions v t) (hle : s ≤ t) : EndsAfter versions v s := by
  obtain ⟨later, hstands, hlater, hretired⟩ := h
  refine ⟨later, hstands, fun w hw => lt_of_le_of_lt hle (hlater w hw), ?_⟩
  cases hr : v.retiredAt with
  | none => rfl
  | some r =>
    rw [hr] at hretired
    simp only [Option.all_some, decide_eq_true_eq] at hretired ⊢
    omega

theorem EndsAfter.isSome_publishedAt {versions : List VersionRow} {v : VersionRow} {t : ℤ}
    (h : EndsAfter versions v t) : v.publishedAt.isSome = true := by
  obtain ⟨later, ⟨earlier, hlist⟩, -⟩ := h
  exact (mem_published.mp (by rw [hlist]; simp : v ∈ published versions)).2

theorem currentPublished_eq_some {versions : List VersionRow} (hids : (versions.map (·.id)).Nodup)
    {t : ℤ} {v : VersionRow} : currentPublished versions t = some v ↔
      v.publishedAt.getD 0 ≤ t ∧ EndsAfter versions v t := by
  rw [currentPublished_eq hids, Option.filter_eq_some_iff, lastPublished_eq_some]
  constructor
  · rintro ⟨⟨later, hstands, hfrom, hlater⟩, hretired⟩
    exact ⟨hfrom, later, hstands, hlater, hretired⟩
  · rintro ⟨hfrom, later, hstands, hlater, hretired⟩
    exact ⟨⟨later, hstands, hfrom, hlater⟩, hretired⟩

theorem mem_validInPeriod {versions : List VersionRow} (hids : (versions.map (·.id)).Nodup)
    {from_ to_ : ℤ} {v : VersionRow} : v ∈ validInPeriod versions from_ to_ ↔
      v ∈ versions ∧ v.publishedAt.getD 0 ≤ to_ ∧ EndsAfter versions v from_ := by
  unfold validInPeriod
  rw [List.mem_filter, Option.any_eq_true, and_congr_right_iff]
  intro hv
  constructor
  · rintro ⟨r, hr, hin⟩
    obtain ⟨later, hstands, rfl⟩ := (get_validRanges hids hv).mp hr
    simp only [rangeOf, Bool.and_eq_true, all_merge_min, all_next hstands] at hin
    exact ⟨of_decide_eq_true hin.1, later, hstands, hin.2.1, hin.2.2⟩
  · rintro ⟨hto, later, hstands, hlater, hretired⟩
    refine ⟨rangeOf v later, (get_validRanges hids hv).mpr ⟨later, hstands, rfl⟩, ?_⟩
    simp only [rangeOf, Bool.and_eq_true, all_merge_min, all_next hstands]
    exact ⟨decide_eq_true hto, hlater, hretired⟩

theorem EndsAfter.max {versions : List VersionRow} {v : VersionRow} {s t : ℤ}
    (hs : EndsAfter versions v s) (ht : EndsAfter versions v t) :
    EndsAfter versions v (max s t) := by
  rcases max_choice s t with h | h <;> rw [h] <;> assumption

/-- In force at some instant: published by the end, and ending neither before the period
nor before the publication. -/
theorem inForceWithin_iff {versions : List VersionRow} (hids : (versions.map (·.id)).Nodup)
    {from_ to_ : ℤ} {v : VersionRow} : InForceWithin versions from_ to_ v ↔
      from_ ≤ to_ ∧ v.publishedAt.getD 0 ≤ to_ ∧ EndsAfter versions v from_ ∧
        EndsAfter versions v (v.publishedAt.getD 0) := by
  unfold InForceWithin
  simp only [currentPublished_eq_some hids]
  constructor
  · rintro ⟨t, hfrom, hto, hpub, hends⟩
    exact ⟨hfrom.trans hto, hpub.trans hto, hends.earlier hfrom, hends.earlier hpub⟩
  · rintro ⟨hperiod, hpub, hfrom, hown⟩
    exact ⟨max from_ (v.publishedAt.getD 0), le_max_left _ _, max_le hperiod hpub,
      le_max_right _ _, hfrom.max hown⟩

theorem validInPeriod_iff {versions : List VersionRow} (hids : (versions.map (·.id)).Nodup)
    (from_ to_ : ℤ) :
    (∀ v, v ∈ validInPeriod versions from_ to_ ↔
      v ∈ versions ∧ InForceWithin versions from_ to_ v) ↔
      NoEmptyRange versions from_ to_ := by
  constructor
  · intro h v hv p hp hto hends
    have hgetD : v.publishedAt.getD 0 = p := by rw [hp, Option.getD_some]
    have hin := ((h v).mp ((mem_validInPeriod hids).mpr ⟨hv, by rwa [hgetD], hends⟩)).2
    obtain ⟨hperiod, -, -, hown⟩ := (inForceWithin_iff hids).mp hin
    rw [hgetD] at hown
    exact ⟨hperiod, hown⟩
  · intro h v
    rw [mem_validInPeriod hids, inForceWithin_iff hids, and_congr_right_iff]
    intro hv
    constructor
    · rintro ⟨hto, hends⟩
      obtain ⟨p, hp⟩ := Option.isSome_iff_exists.mp hends.isSome_publishedAt
      have hgetD : v.publishedAt.getD 0 = p := by rw [hp, Option.getD_some]
      rw [hgetD] at hto ⊢
      obtain ⟨hperiod, hown⟩ := h v hv p hp hto hends
      exact ⟨hperiod, hto, hends, hown⟩
    · rintro ⟨-, hto, hends, -⟩
      exact ⟨hto, hends⟩

/-! ## Due -/

theorem ediv_lt_imp {a b : ℤ} (h : a / dayMs < b / dayMs) : a < b := by
  by_contra hle
  have := Int.ediv_le_ediv (c := dayMs) (by decide) (not_lt.mp hle)
  omega

/-- A version that is due has ended, its retention has passed, and so has its extension. -/
theorem due_of_retentionOf {addYears : ℤ → ℤ → ℤ} {v : VersionRow} {range : Option (Option ℤ)}
    {years today : ℤ} (h : retentionOf addYears v range years today = .due) :
    ∃ u, range = some (some u) ∧ u ≤ today ∧ addYears u (max 0 years) < today ∧
      ∀ hold ∈ v.retainUntil, hold < today := by
  unfold retentionOf at h
  by_cases hdestroyed : v.destroyedAt.isSome
  · rw [if_pos hdestroyed] at h
    cases h
  rw [if_neg hdestroyed] at h
  match range, h with
  | some (some u), h =>
    refine ⟨u, rfl, ?_⟩
    dsimp only at h
    by_cases hforce : today < u
    · rw [if_pos hforce] at h
      cases h
    rw [if_neg hforce] at h
    cases hhold : v.retainUntil with
    | none =>
      simp only [hhold] at h
      split_ifs at h with hlt
      exact ⟨by omega, ediv_lt_imp hlt, fun _ hin => nomatch hin⟩
    | some hold =>
      simp only [hhold] at h
      split_ifs at h with hlater hlt hlt
      · have := ediv_lt_imp hlt
        refine ⟨by omega, by omega, fun _ hin => ?_⟩
        cases hin
        exact this
      · have := ediv_lt_imp hlt
        refine ⟨by omega, this, fun _ hin => ?_⟩
        cases hin
        omega

def versionAt (id : Text) (publishedAt retiredAt : Option ℤ) : VersionRow :=
  ⟨id, js "o", js "d", publishedAt, retiredAt, none, none, none⟩

end Klick.Storage
