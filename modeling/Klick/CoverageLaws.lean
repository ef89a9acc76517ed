-- Coverage accounting: the status of a requirement is the best its edges give, the buckets count
-- every requirement of their group once and add up, and nothing is lowered by a control that
-- moves forward.
import Klick.Coverage

open Js OrderedMap

namespace Klick.Coverage

/-! ## The status of a requirement -/

namespace CoverageInput

variable (input : CoverageInput)

theorem edgesOf_eq (key : Text) :
    input.edgesOf key = input.edges.filter fun e => e.requirement = key := by
  have hfold : ∀ (es list : List Edge), es.foldl (fun list e => list ++ [e]) list = list ++ es := by
    intro es
    induction es with
    | nil => simp
    | cons e es ih => simp [ih]
  unfold edgesOf edgesByReq
  rw [get_groupInto, get_empty]
  change _ = groupOf Edge.requirement key input.edges
  split_ifs with h
  · rw [h]
    rfl
  · exact hfold _ []

/-- What a requirement can count as when it applies: nothing met, or what an edge on it gives. -/
def offers (req : ReqRef) : List ReqCoverage :=
  .unmet :: (input.edges.filter fun e => e.requirement = req.key).filterMap input.statusBy

theorem foldl_better (es : List Edge) (status : ReqCoverage) :
    es.foldl input.better status ∈ status :: es.filterMap input.statusBy ∧
      ∀ s ∈ status :: es.filterMap input.statusBy,
        s.rank ≤ (es.foldl input.better status).rank := by
  induction es generalizing status with
  | nil => simp
  | cons e es ih =>
    obtain ⟨hmem, hbest⟩ := ih (input.better status e)
    rw [List.foldl_cons]
    cases hby : input.statusBy e with
    | none =>
      have hsame : input.better status e = status := by simp [better, hby]
      rw [hsame] at hmem hbest
      rw [hsame, List.filterMap_cons_none hby]
      exact ⟨hmem, hbest⟩
    | some s =>
      rw [List.filterMap_cons_some hby]
      have hnext : input.better status e = if status.rank < s.rank then s else status := by
        simp [better, hby]
      have hle : status.rank ≤ (input.better status e).rank ∧
          s.rank ≤ (input.better status e).rank := by
        rw [hnext]
        split_ifs with h
        · exact ⟨h.le, le_refl _⟩
        · exact ⟨le_refl _, not_lt.mp h⟩
      have hfold := hbest _ List.mem_cons_self
      constructor
      · rcases List.mem_cons.mp hmem with heq | hmem
        · rw [heq, hnext]
          split_ifs <;> simp
        · exact List.mem_cons_of_mem _ (List.mem_cons_of_mem _ hmem)
      · intro r hr
        rcases List.mem_cons.mp hr with rfl | hr
        · exact hle.1.trans hfold
        · rcases List.mem_cons.mp hr with rfl | hr
          · exact hle.2.trans hfold
          · exact hbest r (List.mem_cons_of_mem _ hr)

/-- **The status of a requirement that applies is the best of what its edges give.** -/
theorem statusOf_best {req : ReqRef} (h : input.isApplicable req = true) :
    input.statusOf req ∈ input.offers req ∧
      ∀ s ∈ input.offers req, s.rank ≤ (input.statusOf req).rank := by
  have hbest := input.foldl_better (input.edgesOf req.key) .unmet
  rw [statusOf, if_pos h]
  rw [edgesOf_eq] at hbest ⊢
  exact hbest

theorem statusOf_eq_notApplicable {req : ReqRef} :
    input.statusOf req = .notApplicable ↔ input.isApplicable req = false := by
  constructor
  · intro hstatus
    by_contra h
    have hrank := (input.statusOf_best (Bool.eq_true_of_not_eq_false h)).2 .unmet List.mem_cons_self
    rw [hstatus] at hrank
    exact absurd hrank (by decide)
  · intro h
    rw [statusOf, if_neg (by simp [h])]

end CoverageInput

/-! ## What a bucket counts -/

/-- The counts of a bucket. -/
inductive Count
  | total | applicable | covered | partly | unmet
deriving DecidableEq

def CoverageBucket.count (b : CoverageBucket) : Count → ℕ
  | .total => b.total
  | .applicable => b.applicable
  | .covered => b.covered
  | .partly => b.partly
  | .unmet => b.unmet

/-- What a requirement adds to a count. -/
def Count.gain : Count → ReqCoverage → ℕ
  | .total, _ => 1
  | .applicable, s => if s = .notApplicable then 0 else 1
  | .covered, s => if s = .covered then 1 else 0
  | .partly, s => if s = .partly then 1 else 0
  | .unmet, s => if s = .unmet then 1 else 0

theorem count_add (c : Count) (b : CoverageBucket) (s : ReqCoverage) :
    (add b s).count c = b.count c + c.gain s := by
  cases c <;> cases s <;> rfl

@[simp] theorem count_emptyBucket (c : Count) : emptyBucket.count c = 0 := by
  cases c <;> rfl

@[simp] theorem count_finalize (c : Count) (b : CoverageBucket) :
    (finalize b).count c = b.count c := by
  unfold finalize
  split_ifs <;> cases c <;> rfl

/-- A bucket of some statuses, before its percentages. -/
def tally (statuses : List ReqCoverage) : CoverageBucket := statuses.foldl add emptyBucket

theorem count_tally (c : Count) (statuses : List ReqCoverage) :
    (tally statuses).count c = (statuses.map c.gain).sum := by
  have hfold := foldl_weight (f := add) (w := fun b => b.count c) (count_add c) emptyBucket statuses
  rwa [count_emptyBucket, Nat.zero_add] at hfold

/-- The parts of a status add up. -/
theorem gain_total (s : ReqCoverage) : Count.total.gain s =
    (if s = .notApplicable then 1 else 0) + Count.applicable.gain s := by
  cases s <;> rfl

theorem gain_applicable (s : ReqCoverage) : Count.applicable.gain s =
    Count.covered.gain s + Count.partly.gain s + Count.unmet.gain s := by
  cases s <;> rfl

theorem total_tally (statuses : List ReqCoverage) : (tally statuses).total =
    statuses.count .notApplicable + (tally statuses).applicable := by
  have hsplit : (statuses.map Count.total.gain).sum =
      statuses.count .notApplicable + (statuses.map Count.applicable.gain).sum := by
    induction statuses with
    | nil => rfl
    | cons s statuses ih =>
      rw [List.map_cons, List.sum_cons, List.map_cons, List.sum_cons, List.count_cons, ih,
        gain_total]
      simp only [beq_iff_eq]
      omega
  have htotal := count_tally .total statuses
  have happlicable := count_tally .applicable statuses
  change (tally statuses).total = _ at htotal
  change (tally statuses).applicable = _ at happlicable
  omega

theorem applicable_tally (statuses : List ReqCoverage) : (tally statuses).applicable =
    (tally statuses).covered + (tally statuses).partly + (tally statuses).unmet := by
  have hcount : ∀ c, (tally statuses).count c = (statuses.map c.gain).sum := fun c =>
    count_tally c statuses
  have hsplit : (statuses.map Count.applicable.gain).sum = (statuses.map Count.covered.gain).sum +
      (statuses.map Count.partly.gain).sum + (statuses.map Count.unmet.gain).sum := by
    rw [← List.sum_map_add, ← List.sum_map_add]
    exact congrArg List.sum (List.map_congr_left fun s _ => gain_applicable s)
  have happlicable := hcount .applicable
  have hcovered := hcount .covered
  have hpartly := hcount .partly
  have hunmet := hcount .unmet
  simp only [CoverageBucket.count] at happlicable hcovered hpartly hunmet
  omega

/-! ## The maps after all requirements -/

namespace CoverageInput

variable (input : CoverageInput)

theorem foldl_step_total (reqs : List ReqRef) (t : CoverageResult) :
    (reqs.foldl input.step t).total = (reqs.map input.statusOf).foldl add t.total := by
  induction reqs generalizing t with
  | nil => rfl
  | cons r reqs ih => exact ih _

theorem foldl_step_byRequirement (reqs : List ReqRef) (t : CoverageResult) :
    (reqs.foldl input.step t).byRequirement =
      groupInto .unmet ReqRef.key (fun _ r => input.statusOf r) t.byRequirement reqs := by
  induction reqs generalizing t with
  | nil => rfl
  | cons r reqs ih => exact ih _

/-- The bucket of a group with one more requirement. -/
def fill (b : CoverageBucket) (r : ReqRef) : CoverageBucket := add b (input.statusOf r)

theorem count_fill (c : Count) (b : CoverageBucket) (r : ReqRef) :
    (input.fill b r).count c = b.count c + c.gain (input.statusOf r) := count_add c b _

theorem foldl_step_byFramework (reqs : List ReqRef) (t : CoverageResult) :
    (reqs.foldl input.step t).byFramework =
      groupInto emptyBucket ReqRef.framework input.fill t.byFramework reqs := by
  induction reqs generalizing t with
  | nil => rfl
  | cons r reqs ih => exact ih _

theorem foldl_step_bySection (reqs : List ReqRef) (t : CoverageResult) :
    (reqs.foldl input.step t).bySection =
      groupInto .empty ReqRef.framework (input.addTo sectionOf) t.bySection reqs := by
  induction reqs generalizing t with
  | nil => rfl
  | cons r reqs ih => exact ih _

theorem foldl_step_byDomain (reqs : List ReqRef) (t : CoverageResult) :
    (reqs.foldl input.step t).byDomain =
      groupInto .empty ReqRef.framework (input.addTo ReqRef.domain) t.byDomain reqs := by
  induction reqs generalizing t with
  | nil => rfl
  | cons r reqs ih => exact ih _

/-- The inner maps are filled as the outer ones. -/
theorem foldl_addTo {K : Type} [DecidableEq K] (key : ReqRef → K) (reqs : List ReqRef) :
    reqs.foldl (input.addTo key) .empty = groupInto emptyBucket key input.fill .empty reqs := rfl

theorem foldl_fill (reqs : List ReqRef) :
    reqs.foldl input.fill emptyBucket = tally (reqs.map input.statusOf) := by
  rw [tally, List.foldl_map]
  rfl

/-- Before the first requirement every framework has an empty bucket and empty maps. -/
structure StartsEmpty (frameworks : List Text) (t : CoverageResult) : Prop where
  byRequirement : t.byRequirement = .empty
  total : t.total = emptyBucket
  byFramework : ∀ fw, t.byFramework.get fw = if fw ∈ frameworks then some emptyBucket else none
  bySection : ∀ fw, t.bySection.get fw = if fw ∈ frameworks then some .empty else none
  byDomain : ∀ fw, t.byDomain.get fw = if fw ∈ frameworks then some .empty else none

theorem startsEmpty : StartsEmpty input.frameworks input.start := by
  unfold start
  have hstart : StartsEmpty [] (⟨.empty, .empty, .empty, .empty, .empty, emptyBucket⟩ :
      CoverageResult) := ⟨rfl, rfl, fun _ => rfl, fun _ => rfl, fun _ => rfl⟩
  have hfold : ∀ (fws seen : List Text) (t : CoverageResult), StartsEmpty seen t →
      StartsEmpty (seen ++ fws) (fws.foldl (fun t fw =>
        { t with
          byFramework := t.byFramework.set fw emptyBucket
          bySection := t.bySection.set fw .empty
          byDomain := t.byDomain.set fw .empty }) t) := by
    intro fws
    induction fws with
    | nil =>
      intro seen t h
      rwa [List.append_nil]
    | cons fw fws ih =>
      intro seen t h
      have hnext := ih (seen ++ [fw]) _ (⟨h.byRequirement, h.total, fun k => ?_, fun k => ?_,
        fun k => ?_⟩ : StartsEmpty (seen ++ [fw])
          { t with
            byFramework := t.byFramework.set fw emptyBucket
            bySection := t.bySection.set fw .empty
            byDomain := t.byDomain.set fw .empty })
      · rwa [List.append_assoc] at hnext
      · rw [get_set, h.byFramework]
        by_cases hk : k = fw <;> simp [hk]
      · rw [get_set, h.bySection]
        by_cases hk : k = fw <;> simp [hk]
      · rw [get_set, h.byDomain]
        by_cases hk : k = fw <;> simp [hk]
  exact hfold input.frameworks [] _ hstart

/-- The selected requirements of a framework. -/
def ofFramework (fw : Text) : List ReqRef := groupOf ReqRef.framework fw input.selected

theorem ofFramework_eq_nil {fw : Text} (h : fw ∉ input.frameworks) : input.ofFramework fw = [] := by
  unfold ofFramework groupOf
  rw [List.filter_eq_nil_iff]
  intro r hr
  have hsel := (List.mem_filter.mp hr).2
  simp only [decide_eq_true_eq] at hsel ⊢
  rintro rfl
  exact h hsel

/-- What the selected requirements make of the values that the frameworks begin with. -/
theorem get_selected {V : Type} {first v : V} {f : V → ReqRef → V} {m : OrderedMap Text V} {fw : Text}
    (h : m.get fw = if fw ∈ input.frameworks then some v else none) :
    (groupInto first ReqRef.framework f m input.selected).get fw =
      if fw ∈ input.frameworks then some ((input.ofFramework fw).foldl f v) else none := by
  by_cases hfw : fw ∈ input.frameworks
  · rw [if_pos hfw] at h
    rw [get_groupInto_of_some h, if_pos hfw]
    rfl
  · rw [if_neg hfw] at h
    have hnil : groupOf ReqRef.framework fw input.selected = [] := input.ofFramework_eq_nil hfw
    rw [if_neg hfw, get_groupInto, if_pos hnil, h]

end CoverageInput

theorem get_mapValues {K V : Type} [DecidableEq K] (m : OrderedMap K V) (f : V → V) (k : K) :
    (m.mapValues f).get k = (m.get k).map f := by
  unfold mapValues OrderedMap.get
  simp only
  induction m.entries with
  | nil => rfl
  | cons e es ih =>
    rw [List.map_cons, find, find]
    split_ifs with hk
    · rfl
    · exact ih

theorem sum_mapValues {K V : Type} [DecidableEq K] (m : OrderedMap K V) {f : V → V} {w : V → ℕ}
    (h : ∀ v, w (f v) = w v) : (m.mapValues f).sum w = m.sum w := by
  rw [OrderedMap.sum, OrderedMap.sum, values_mapValues, List.map_map]
  exact congrArg List.sum (List.map_congr_left fun v _ => h v)

section Result

variable (input : CoverageInput)

theorem total_eq : (deriveCoverage input).total =
    finalize (tally (input.selected.map input.statusOf)) := by
  unfold deriveCoverage
  simp only [CoverageInput.foldl_step_total, input.startsEmpty.total]
  rfl

theorem byRequirement_get (key : Text) : (deriveCoverage input).byRequirement.get key =
    ((groupOf ReqRef.key key input.selected).getLast?).map input.statusOf := by
  have hlast : ∀ (reqs : List ReqRef) (s : ReqCoverage),
      reqs.foldl (fun _ r => input.statusOf r) s = ((reqs.getLast?).map input.statusOf).getD s := by
    intro reqs
    induction reqs using List.reverseRecOn with
    | nil => intro s; rfl
    | append_singleton reqs r ih => intro s; simp
  unfold deriveCoverage
  simp only [CoverageInput.foldl_step_byRequirement, input.startsEmpty.byRequirement, get_groupInto,
    get_empty, hlast]
  rcases List.eq_nil_or_concat' (groupOf ReqRef.key key input.selected) with h | ⟨reqs, r, h⟩
  · rw [h]
    rfl
  · rw [h]
    simp

theorem byFramework_get (fw : Text) : (deriveCoverage input).byFramework.get fw =
    if fw ∈ input.frameworks then
      some (finalize (tally ((input.ofFramework fw).map input.statusOf)))
    else none := by
  unfold deriveCoverage
  simp only [CoverageInput.foldl_step_byFramework, get_mapValues]
  rw [input.get_selected (input.startsEmpty.byFramework fw), CoverageInput.foldl_fill]
  split_ifs <;> rfl

/-- The buckets of the groups of a framework. -/
def groupBuckets {K : Type} [DecidableEq K] (key : ReqRef → K) (fw : Text) :
    OrderedMap K CoverageBucket :=
  groupInto emptyBucket key input.fill .empty (input.ofFramework fw)

theorem bySection_get (fw : Text) : (deriveCoverage input).bySection.get fw =
    if fw ∈ input.frameworks then
      some ((groupBuckets input CoverageInput.sectionOf fw).mapValues finalize)
    else none := by
  unfold deriveCoverage
  simp only [CoverageInput.foldl_step_bySection, get_mapValues]
  rw [input.get_selected (input.startsEmpty.bySection fw), CoverageInput.foldl_addTo]
  split_ifs <;> rfl

theorem byDomain_get (fw : Text) : (deriveCoverage input).byDomain.get fw =
    if fw ∈ input.frameworks then
      some ((groupBuckets input ReqRef.domain fw).mapValues finalize)
    else none := by
  unfold deriveCoverage
  simp only [CoverageInput.foldl_step_byDomain, get_mapValues]
  rw [input.get_selected (input.startsEmpty.byDomain fw), CoverageInput.foldl_addTo]
  split_ifs <;> rfl

theorem groupBuckets_get {K : Type} [DecidableEq K] (key : ReqRef → K) (fw : Text) (k : K) :
    (groupBuckets input key fw).get k = if groupOf key k (input.ofFramework fw) = [] then none
      else some (tally ((groupOf key k (input.ofFramework fw)).map input.statusOf)) := by
  unfold groupBuckets
  rw [get_groupInto, get_empty, Option.getD_none, CoverageInput.foldl_fill]

/-! ## The sums -/

theorem sum_start (c : Count) : input.start.byFramework.sum (fun b => b.count c) = 0 := by
  rw [OrderedMap.sum, List.sum_eq_zero]
  intro n hn
  obtain ⟨b, hb, rfl⟩ := List.mem_map.mp hn
  obtain ⟨fw, hget⟩ := (mem_values _).mp hb
  rw [input.startsEmpty.byFramework] at hget
  split_ifs at hget
  cases hget
  exact count_emptyBucket c

/-- The buckets of the frameworks add up to the total. -/
theorem frameworks_add_up (c : Count) :
    (deriveCoverage input).byFramework.sum (fun b => b.count c) =
      (deriveCoverage input).total.count c := by
  have hsum : (groupInto emptyBucket ReqRef.framework input.fill input.start.byFramework
      input.selected).sum (fun b => b.count c) = input.start.byFramework.sum (fun b => b.count c) +
        (input.selected.map fun r => c.gain (input.statusOf r)).sum :=
    sum_groupInto (w := fun b : CoverageBucket => b.count c) (count_emptyBucket c)
      (input.count_fill c) _ _
  rw [total_eq, count_finalize, count_tally, List.map_map]
  unfold deriveCoverage
  simp only [CoverageInput.foldl_step_byFramework]
  rw [sum_mapValues _ (count_finalize c), hsum, sum_start, Nat.zero_add]
  rfl

/-- The buckets of the groups of a framework add up to its own. -/
theorem groups_add_up {K : Type} [DecidableEq K] (key : ReqRef → K) (fw : Text) (c : Count) :
    ((groupBuckets input key fw).mapValues finalize).sum (fun b => b.count c) =
      (finalize (tally ((input.ofFramework fw).map input.statusOf))).count c := by
  have hsum : (groupInto emptyBucket key input.fill .empty (input.ofFramework fw)).sum
      (fun b => b.count c) = (OrderedMap.empty : OrderedMap K CoverageBucket).sum
        (fun b => b.count c) + ((input.ofFramework fw).map fun r => c.gain (input.statusOf r)).sum :=
    sum_groupInto (w := fun b : CoverageBucket => b.count c) (count_emptyBucket c)
      (input.count_fill c) _ _
  have hempty : (OrderedMap.empty : OrderedMap K CoverageBucket).sum (fun b => b.count c) = 0 := rfl
  rw [sum_mapValues _ (count_finalize c), groupBuckets, hsum, hempty, count_finalize, count_tally,
    List.map_map, Nat.zero_add]
  rfl

end Result

/-! ## Controls that move forward -/

/-- How far a control has come; one that does not apply is nowhere on the way. -/
def ImplStatus.stage : ImplStatus → Option ℕ
  | .notStarted => some 0
  | .planned => some 1
  | .inProgress => some 2
  | .implemented => some 3
  | .notApplicable => none

/-- A control stays as it is, or comes further on the way. -/
def ImplStatus.Forward (a b : ImplStatus) : Prop :=
  a = b ∨ ∃ i j, a.stage = some i ∧ b.stage = some j ∧ i ≤ j

theorem edgeStatus_forward {a b : ImplStatus} (h : a.Forward b) {coverage : EdgeCoverage}
    {s : ReqCoverage} (hs : edgeStatus coverage a = some s) :
    ∃ s', edgeStatus coverage b = some s' ∧ s.rank ≤ s'.rank := by
  rcases h with rfl | ⟨i, j, ha, hb, hij⟩
  · exact ⟨s, hs, le_refl _⟩
  · cases a <;> cases b <;> cases ha <;> cases hb <;> cases coverage <;> cases hs <;>
      first
        | exact ⟨_, rfl, by decide⟩
        | exact absurd hij (by decide)

/-- Two inputs that differ in the status of controls, which all have moved forward. -/
structure MovesForward (i i' : CoverageInput) : Prop where
  frameworks : i'.frameworks = i.frameworks
  requirements : i'.requirements = i.requirements
  applicability : i'.applicability = i.applicability
  edges : i'.edges = i.edges
  forward : ∀ control, (i.implStatusOf control).Forward (i'.implStatusOf control)

section Forward

variable {i i' : CoverageInput} (h : MovesForward i i')

include h

theorem MovesForward.isApplicable (r : ReqRef) : i'.isApplicable r = i.isApplicable r := by
  unfold CoverageInput.isApplicable
  rw [h.applicability]

theorem MovesForward.selected : i'.selected = i.selected := by
  unfold CoverageInput.selected
  rw [h.requirements, h.frameworks]

theorem MovesForward.ofFramework (fw : Text) : i'.ofFramework fw = i.ofFramework fw := by
  unfold CoverageInput.ofFramework
  rw [h.selected]

/-- No requirement is lowered. -/
theorem MovesForward.rank_le (r : ReqRef) : (i.statusOf r).rank ≤ (i'.statusOf r).rank := by
  cases happ : i.isApplicable r with
  | false =>
    have happ' : i'.isApplicable r = false := by rw [h.isApplicable, happ]
    rw [i.statusOf_eq_notApplicable.mpr happ, i'.statusOf_eq_notApplicable.mpr happ']
  | true =>
    have happ' : i'.isApplicable r = true := by rw [h.isApplicable, happ]
    obtain ⟨hmem, -⟩ := i.statusOf_best happ
    obtain ⟨-, hbest⟩ := i'.statusOf_best happ'
    rcases List.mem_cons.mp hmem with heq | hmem
    · rw [heq]
      exact hbest _ List.mem_cons_self
    · obtain ⟨e, he, hby⟩ := List.mem_filterMap.mp hmem
      obtain ⟨s', hby', hle⟩ := edgeStatus_forward (h.forward e.control) hby
      apply hle.trans (hbest s' (List.mem_cons_of_mem _ (List.mem_filterMap.mpr ⟨e, ?_, hby'⟩)))
      rwa [h.edges]

theorem MovesForward.notApplicable_iff (r : ReqRef) :
    i'.statusOf r = .notApplicable ↔ i.statusOf r = .notApplicable := by
  rw [i'.statusOf_eq_notApplicable, i.statusOf_eq_notApplicable, h.isApplicable]

end Forward

/-! ## Percentages -/

/-- A half of a whole number of at most 52 binary digits is a binary64. -/
theorem fl_half {n : ℕ} (h : n < 2 ^ 52) : fl ((n : ℚ) / 2) = n / 2 := by
  rcases Nat.eq_zero_or_pos n with rfl | hn
  · simpa using fl_zero
  have hpos : (0 : ℚ) < (n : ℚ) / 2 := by positivity
  have habs : |(n : ℚ) / 2| = n / 2 := abs_of_pos hpos
  have hle : (2 : ℚ) ^ Int.log 2 ((n : ℚ) / 2) ≤ n / 2 :=
    Int.zpow_log_le_self (b := 2) (by norm_num) hpos
  have hlt : (n : ℚ) / 2 < 2 ^ (51 : ℤ) := by
    have hcast : (n : ℚ) < 2 ^ 52 := by exact_mod_cast h
    have hpow : (2 : ℚ) ^ (51 : ℤ) = 2 ^ 52 / 2 := by norm_num
    rw [hpow]
    linarith
  have hlog : Int.log 2 ((n : ℚ) / 2) < 51 :=
    (zpow_lt_zpow_iff_right₀ (by norm_num : (1 : ℚ) < 2)).mp (hle.trans_lt hlt)
  have hbit : lastBit ((n : ℚ) / 2) ≤ -1 := by
    unfold lastBit
    rw [habs]
    omega
  obtain ⟨w, hw⟩ := zpow_multiple hbit
  apply fl_of_multiple (n * w)
  push_cast
  rw [← hw]
  field_simp

theorem round1_mono {p q : ℚ} (h : p ≤ q) : round1 p ≤ round1 q := by
  have hten : fl (p * 10) ≤ fl (q * 10) := fl_mono (by linarith)
  have hround : mathRound (fl (p * 10)) ≤ mathRound (fl (q * 10)) :=
    Int.floor_le_floor (by linarith)
  apply fl_mono
  have hcast : (mathRound (fl (p * 10)) : ℚ) ≤ mathRound (fl (q * 10)) := by exact_mod_cast hround
  linarith

theorem share_mono {p q : ℚ} (h : p ≤ q) (n : ℕ) :
    round1 (fl (fl (p / n) * 100)) ≤ round1 (fl (fl (q / n) * 100)) := by
  apply round1_mono
  apply fl_mono
  have hshare : fl (p / n) ≤ fl (q / n) := fl_mono (div_le_div_of_nonneg_right h n.cast_nonneg)
  linarith

/-- A percentage is not lowered. -/
def NotLower : Option ℚ → Option ℚ → Prop
  | none, none => True
  | some p, some q => p ≤ q
  | _, _ => False

structure CoverageBucket.NotLower (b b' : CoverageBucket) : Prop where
  coverage : Coverage.NotLower b.coveragePct b'.coveragePct
  progress : Coverage.NotLower b.progressPct b'.progressPct

/-- The statuses of a group move forward. -/
theorem finalize_notLower {reqs : List ReqRef} {f g : ReqRef → ReqCoverage}
    (hlen : reqs.length < 2 ^ 32) (hrank : ∀ r, (f r).rank ≤ (g r).rank)
    (hna : ∀ r, g r = .notApplicable ↔ f r = .notApplicable) :
    (finalize (tally (reqs.map f))).NotLower (finalize (tally (reqs.map g))) := by
  have hcount : ∀ (c : Count) (f : ReqRef → ReqCoverage),
      (tally (reqs.map f)).count c = (reqs.map fun r => c.gain (f r)).sum := by
    intro c f
    rw [count_tally, List.map_map]
    rfl
  have happlicable : (tally (reqs.map g)).applicable = (tally (reqs.map f)).applicable := by
    have hsame : ∀ r, Count.applicable.gain (g r) = Count.applicable.gain (f r) := by
      intro r
      simp only [Count.gain, hna r]
    have hf := hcount .applicable f
    have hg := hcount .applicable g
    simp only [hsame] at hg
    exact hg.trans hf.symm
  have hcovered : (tally (reqs.map f)).covered ≤ (tally (reqs.map g)).covered := by
    have hle : ∀ r ∈ reqs, Count.covered.gain (f r) ≤ Count.covered.gain (g r) := by
      intro r _
      have hr := hrank r
      cases hf : f r <;> cases hg : g r <;> rw [hf, hg] at hr <;>
        first
          | exact absurd hr (by decide)
          | decide
    have hsum := List.sum_le_sum hle
    rwa [← hcount, ← hcount] at hsum
  have hweight : 2 * (tally (reqs.map f)).covered + (tally (reqs.map f)).partly ≤
      2 * (tally (reqs.map g)).covered + (tally (reqs.map g)).partly := by
    have hle : ∀ r ∈ reqs, 2 * Count.covered.gain (f r) + Count.partly.gain (f r) ≤
        2 * Count.covered.gain (g r) + Count.partly.gain (g r) := by
      intro r _
      have hr := hrank r
      cases hf : f r <;> cases hg : g r <;> rw [hf, hg] at hr <;>
        first
          | exact absurd hr (by decide)
          | decide
    have hsum := List.sum_le_sum hle
    rw [List.sum_map_add, List.sum_map_add, List.sum_map_mul_left, List.sum_map_mul_left,
      ← hcount, ← hcount, ← hcount, ← hcount] at hsum
    exact hsum
  have hbound : ∀ f : ReqRef → ReqCoverage, (tally (reqs.map f)).partly < 2 ^ 52 := by
    intro f
    have htotal := hcount .total f
    have hone : (reqs.map fun r => Count.total.gain (f r)).sum = reqs.length := by
      simp [Count.gain]
    rw [hone] at htotal
    have hsplit := total_tally (reqs.map f)
    have happ := applicable_tally (reqs.map f)
    simp only [CoverageBucket.count] at htotal
    omega
  unfold finalize
  rw [happlicable]
  split_ifs with hzero
  · exact ⟨trivial, trivial⟩
  · refine ⟨?_, ?_⟩
    · exact share_mono (by exact_mod_cast hcovered) _
    · apply share_mono
      apply fl_mono
      rw [fl_half (hbound f), fl_half (hbound g)]
      have hcast : (2 * (tally (reqs.map f)).covered + (tally (reqs.map f)).partly : ℚ) ≤
          2 * (tally (reqs.map g)).covered + (tally (reqs.map g)).partly := by exact_mod_cast hweight
      linarith

/-! ## What a change lists -/

theorem MovesForward.change {input : CoverageInput} {control : Text} {newStatus : ImplStatus}
    (h : (input.implStatusOf control).Forward newStatus) :
    MovesForward input (input.change control newStatus) := by
  refine ⟨rfl, rfl, rfl, rfl, fun k => ?_⟩
  unfold CoverageInput.implStatusOf CoverageInput.change
  simp only [get_set]
  by_cases hk : k = control
  · rw [if_pos hk, hk]
    exact h
  · rw [if_neg hk]
    exact Or.inl rfl

theorem keys_filterMap {K V α : Type} {f : K × V → Option α} {key : α → K}
    (hkey : ∀ e a, f e = some a → key a = e.1) (es : List (K × V)) :
    ((es.filterMap f).map key).Sublist (es.map Prod.fst) := by
  induction es with
  | nil => exact .slnil
  | cons e es ih =>
    cases hf : f e with
    | none =>
      rw [List.filterMap_cons_none hf]
      exact ih.cons _
    | some a =>
      rw [List.filterMap_cons_some hf, List.map_cons, List.map_cons, hkey e a hf]
      exact ih.cons_cons _

/-- The requirements that a change lists: each that changes, once. -/
theorem affected_iff (input : CoverageInput) (control : Text) (newStatus : ImplStatus) :
    ((coverageDelta input control newStatus).affected.map Affected.key).Nodup ∧
      ∀ x : Affected, x ∈ (coverageDelta input control newStatus).affected ↔
        (deriveCoverage input).byRequirement.get x.key = some x.before ∧
          (deriveCoverage (input.change control newStatus)).byRequirement.get x.key =
            some x.after ∧ x.after ≠ x.before := by
  have hsame : ∀ key, ((deriveCoverage input).byRequirement.get key).isSome →
      ((deriveCoverage (input.change control newStatus)).byRequirement.get key).isSome := by
    intro key
    rw [byRequirement_get, byRequirement_get, Option.isSome_map, Option.isSome_map]
    exact id
  unfold coverageDelta
  refine ⟨List.Sublist.nodup (keys_filterMap ?_ _) (deriveCoverage input).byRequirement.nodup,
    fun x => ?_⟩
  · rintro ⟨key, b⟩ a ha
    simp only at ha
    split_ifs at ha
    cases ha
    rfl
  · rw [List.mem_filterMap]
    constructor
    · rintro ⟨⟨key, b⟩, hmem, heq⟩
      simp only at heq
      split_ifs at heq with hne
      cases heq
      have hget := ((deriveCoverage input).byRequirement.get_eq_some_iff).mpr hmem
      obtain ⟨a, ha⟩ := Option.isSome_iff_exists.mp (hsame key (by rw [hget]; rfl))
      rw [ha] at hne ⊢
      exact ⟨hget, rfl, hne⟩
    · rintro ⟨hbefore, hafter, hne⟩
      refine ⟨(x.key, x.before), ((deriveCoverage input).byRequirement.get_eq_some_iff).mp hbefore, ?_⟩
      simp only [hafter, Option.getD_some, if_pos hne]

/-! ## Coverage is accounted for -/

/-- The buckets of a result, each with the requirements it counts. -/
inductive HasBucket (input : CoverageInput) : List ReqRef → CoverageBucket → Prop
  | total : HasBucket input input.selected (deriveCoverage input).total
  | framework {fw : Text} {b : CoverageBucket}
      (h : (deriveCoverage input).byFramework.get fw = some b) :
      HasBucket input (input.ofFramework fw) b
  | section_ {fw k : Text} {m : OrderedMap Text CoverageBucket} {b : CoverageBucket}
      (hm : (deriveCoverage input).bySection.get fw = some m) (h : m.get k = some b) :
      HasBucket input (groupOf CoverageInput.sectionOf k (input.ofFramework fw)) b
  | domain {fw : Text} {k : Domain} {m : OrderedMap Domain CoverageBucket} {b : CoverageBucket}
      (hm : (deriveCoverage input).byDomain.get fw = some m) (h : m.get k = some b) :
      HasBucket input (groupOf ReqRef.domain k (input.ofFramework fw)) b

theorem eq_of_groupBuckets {K : Type} [DecidableEq K] {input : CoverageInput} {key : ReqRef → K}
    {fw : Text} {k : K} {b : CoverageBucket}
    (h : ((groupBuckets input key fw).mapValues finalize).get k = some b) :
    groupOf key k (input.ofFramework fw) ≠ [] ∧
      b = finalize (tally ((groupOf key k (input.ofFramework fw)).map input.statusOf)) := by
  rw [get_mapValues, groupBuckets_get] at h
  split_ifs at h with hnil
  · cases h
  · exact ⟨hnil, (Option.some.inj h).symm⟩

/-- A bucket counts the statuses of its requirements. -/
theorem HasBucket.eq {input : CoverageInput} {reqs : List ReqRef} {b : CoverageBucket}
    (h : HasBucket input reqs b) : b = finalize (tally (reqs.map input.statusOf)) := by
  cases h with
  | total => exact total_eq input
  | framework h =>
    rw [byFramework_get] at h
    split_ifs at h
    exact (Option.some.inj h).symm
  | section_ hm h =>
    rw [bySection_get] at hm
    split_ifs at hm
    cases hm
    exact (eq_of_groupBuckets h).2
  | domain hm h =>
    rw [byDomain_get] at hm
    split_ifs at hm
    cases hm
    exact (eq_of_groupBuckets h).2

theorem HasBucket.length_lt {input : CoverageInput} {reqs : List ReqRef} {b : CoverageBucket}
    (h : HasBucket input reqs b) : reqs.length < 2 ^ 32 := by
  have hsub : reqs.Sublist input.requirements := by
    cases h with
    | total => exact List.filter_sublist
    | framework h => exact List.filter_sublist.trans List.filter_sublist
    | section_ hm h => exact List.filter_sublist.trans (List.filter_sublist.trans List.filter_sublist)
    | domain hm h => exact List.filter_sublist.trans (List.filter_sublist.trans List.filter_sublist)
  exact hsub.length_le.trans_lt input.requirements_length

theorem HasBucket.adds_up {input : CoverageInput} {reqs : List ReqRef} {b : CoverageBucket}
    (h : HasBucket input reqs b) :
    b.total = (reqs.map input.statusOf).count .notApplicable + b.applicable ∧
      b.applicable = b.covered + b.partly + b.unmet := by
  have hcount : ∀ c, b.count c = (tally (reqs.map input.statusOf)).count c := fun c => by
    rw [h.eq, count_finalize]
  have htotal := hcount .total
  have happlicable := hcount .applicable
  have hcovered := hcount .covered
  have hpartly := hcount .partly
  have hunmet := hcount .unmet
  simp only [CoverageBucket.count] at htotal happlicable hcovered hpartly hunmet
  rw [htotal, happlicable, hcovered, hpartly, hunmet]
  exact ⟨total_tally _, applicable_tally _⟩

/-- What is true of the coverage that is derived from an input. -/
structure Accounted (input : CoverageInput) : Prop where
  byRequirement : ∀ key, (deriveCoverage input).byRequirement.get key =
    ((groupOf ReqRef.key key input.selected).getLast?).map input.statusOf
  best : ∀ r, input.isApplicable r = true → input.statusOf r ∈ input.offers r ∧
    ∀ s ∈ input.offers r, s.rank ≤ (input.statusOf r).rank
  excluded : ∀ r, input.isApplicable r = false → input.statusOf r = .notApplicable
  buckets : ∀ reqs b, HasBucket input reqs b →
    b.total = (reqs.map input.statusOf).count .notApplicable + b.applicable ∧
      b.applicable = b.covered + b.partly + b.unmet
  frameworks : ∀ c, (deriveCoverage input).byFramework.sum (fun b => b.count c) =
    (deriveCoverage input).total.count c
  groups : ∀ fw b, (deriveCoverage input).byFramework.get fw = some b →
    ∃ sections domains, (deriveCoverage input).bySection.get fw = some sections ∧
      (deriveCoverage input).byDomain.get fw = some domains ∧
      ∀ c, sections.sum (fun s => s.count c) = b.count c ∧
        domains.sum (fun d => d.count c) = b.count c

theorem accounted (input : CoverageInput) : Accounted input where
  byRequirement := byRequirement_get input
  best _ h := input.statusOf_best h
  excluded _ h := input.statusOf_eq_notApplicable.mpr h
  buckets _ _ h := h.adds_up
  frameworks := frameworks_add_up input
  groups fw b h := by
    rw [byFramework_get] at h
    split_ifs at h with hfw
    cases h
    refine ⟨_, _, (bySection_get input fw).trans (if_pos hfw),
      (byDomain_get input fw).trans (if_pos hfw), fun c => ⟨?_, ?_⟩⟩
    · exact groups_add_up input _ fw c
    · exact groups_add_up input _ fw c

/-- Nothing is lower in a second result: no requirement, and no percentage of a bucket. -/
structure NothingLower (i i' : CoverageInput) : Prop where
  requirements : ∀ key s, (deriveCoverage i).byRequirement.get key = some s →
    ∃ s', (deriveCoverage i').byRequirement.get key = some s' ∧ s.rank ≤ s'.rank
  total : (deriveCoverage i).total.NotLower (deriveCoverage i').total
  frameworks : ∀ fw b, (deriveCoverage i).byFramework.get fw = some b →
    ∃ b', (deriveCoverage i').byFramework.get fw = some b' ∧ b.NotLower b'
  sections : ∀ fw k m b, (deriveCoverage i).bySection.get fw = some m → m.get k = some b →
    ∃ m' b', (deriveCoverage i').bySection.get fw = some m' ∧ m'.get k = some b' ∧ b.NotLower b'
  domains : ∀ fw k m b, (deriveCoverage i).byDomain.get fw = some m → m.get k = some b →
    ∃ m' b', (deriveCoverage i').byDomain.get fw = some m' ∧ m'.get k = some b' ∧ b.NotLower b'

section Forward

variable {i i' : CoverageInput} (h : MovesForward i i')

include h

theorem MovesForward.notLower {reqs : List ReqRef} {b : CoverageBucket} (hb : HasBucket i reqs b) :
    b.NotLower (finalize (tally (reqs.map i'.statusOf))) := by
  rw [hb.eq]
  exact finalize_notLower hb.length_lt h.rank_le h.notApplicable_iff

theorem MovesForward.groupBuckets {K : Type} [DecidableEq K] {key : ReqRef → K} {fw : Text} {k : K}
    {b : CoverageBucket} (hb : ((groupBuckets i key fw).mapValues finalize).get k = some b) :
    ((Coverage.groupBuckets i' key fw).mapValues finalize).get k =
      some (finalize (tally ((groupOf key k (i.ofFramework fw)).map i'.statusOf))) := by
  have hne := (eq_of_groupBuckets hb).1
  rw [get_mapValues, groupBuckets_get, h.ofFramework, if_neg hne]
  rfl

theorem MovesForward.nothingLower : NothingLower i i' where
  requirements key s hs := by
    rw [byRequirement_get] at hs ⊢
    obtain ⟨r, hr, rfl⟩ := Option.map_eq_some_iff.mp hs
    rw [h.selected, hr]
    exact ⟨_, rfl, h.rank_le r⟩
  total := by
    have hb := h.notLower .total
    rwa [← h.selected, ← total_eq] at hb
  frameworks fw b hb := by
    have hlow := h.notLower (.framework hb)
    rw [byFramework_get] at hb
    split_ifs at hb with hfw
    refine ⟨_, ?_, hlow⟩
    rw [byFramework_get, h.frameworks, if_pos hfw, h.ofFramework]
  sections fw k m b hm hb := by
    have hlow := h.notLower (.section_ hm hb)
    rw [bySection_get] at hm
    split_ifs at hm with hfw
    cases hm
    refine ⟨_, _, ?_, h.groupBuckets hb, hlow⟩
    rw [bySection_get, h.frameworks, if_pos hfw]
  domains fw k m b hm hb := by
    have hlow := h.notLower (.domain hm hb)
    rw [byDomain_get] at hm
    split_ifs at hm with hfw
    cases hm
    refine ⟨_, _, ?_, h.groupBuckets hb, hlow⟩
    rw [byDomain_get, h.frameworks, if_pos hfw]

end Forward

/-- A requirement with a control on it that has not begun. -/
def sampleInput : CoverageInput where
  frameworks := [js "dora"]
  requirements := [⟨js "dora", js "1", .governance, some (js "II"), some .inForce⟩]
  applicability := .empty
  edges := [⟨js "CC-A", js "dora:1", .full⟩]
  implStatus := .empty
  requirements_length := by decide

end Klick.Coverage
