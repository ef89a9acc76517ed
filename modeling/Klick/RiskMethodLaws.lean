-- A method without issues has classes that follow each other over its range; a change of
-- the formula keeps them so exactly where each class but the last leaves room for those
-- above it.
import Klick.RiskMethod

namespace Klick.Risk

open Js Intervals

/-! ## What the check of a method means -/

@[simp] theorem issueIf_eq_nil {p : Prop} [Decidable p] {issue : RiskMethodIssue} :
    issueIf p issue = [] ↔ ¬ p := by
  unfold issueIf
  split_ifs with h <;> simp [h]

theorem distinct_eq_nil {κ : Type} [DecidableEq κ] {as : List κ} : distinct as = [] ↔ as = [] := by
  simp only [List.eq_nil_iff_forall_not_mem, mem_distinct]

/-- All of a class but its borders. -/
def face (c : RiskClass) : Text × Text × RiskZone × Text × Option (List RiskAcceptanceStep) :=
  (c.key, c.label, c.zone, c.meaning, c.acceptance)

/-- Classes with a label each, from the zone that is least severe on. -/
def Faces (classes : List RiskClass) : Prop :=
  (∀ c ∈ classes, trim c.label ≠ []) ∧ (classes.map (·.zone.rank)).IsChain (· ≤ ·)

/-- Classes that follow each other. -/
abbrev Follow (low : ℤ) (classes : List RiskClass) (next : ℤ) : Prop :=
  Spans RiskClass.min RiskClass.max low classes next

theorem map_key_of_face {cs ds : List RiskClass} (h : cs.map face = ds.map face) :
    cs.map (·.key) = ds.map (·.key) := by
  simpa [List.map_map, Function.comp_def, face] using congrArg (List.map (·.1)) h

theorem faces_congr {cs ds : List RiskClass} (h : cs.map face = ds.map face) :
    Faces cs ↔ Faces ds := by
  have hlabel : cs.map (·.label) = ds.map (·.label) := by
    simpa [List.map_map, Function.comp_def, face] using congrArg (List.map (·.2.1)) h
  have hrank : cs.map (·.zone.rank) = ds.map (·.zone.rank) := by
    simpa [List.map_map, Function.comp_def, face] using congrArg (List.map (·.2.2.1.rank)) h
  have hall : ∀ es : List RiskClass, (∀ c ∈ es, trim c.label ≠ []) ↔
      ∀ l ∈ es.map (·.label), trim l ≠ [] := by simp
  unfold Faces
  rw [hall cs, hall ds, hlabel, hrank]

/-- The classes after one without issues follow it. -/
theorem classIssues_some_eq_nil {p : RiskClass} {cs : List RiskClass} :
    classIssues (some p) cs = [] ↔ (∃ next, Follow (p.max + 1) cs next) ∧
      (∀ c ∈ cs, trim c.label ≠ []) ∧ ((p :: cs).map (·.zone.rank)).IsChain (· ≤ ·) := by
  induction cs generalizing p with
  | nil => simpa [classIssues] using ⟨p.max + 1, Spans.nil _⟩
  | cons c cs ih =>
    unfold classIssues
    simp only [List.append_eq_nil_iff, issueIf_eq_nil, ih, spans_cons_iff, List.forall_mem_cons,
      List.map_cons, List.isChain_cons_cons, not_lt, not_not, ne_eq]
    constructor
    · rintro ⟨⟨⟨horder, hlabel⟩, hgap, hzone⟩, ⟨next, hnext⟩, hlabels, hchain⟩
      exact ⟨⟨next, hgap, by omega, hnext⟩, ⟨hlabel, hlabels⟩, hzone, hchain⟩
    · rintro ⟨⟨next, hgap, horder, hnext⟩, ⟨hlabel, hlabels⟩, hzone, hchain⟩
      exact ⟨⟨⟨by omega, hlabel⟩, hgap, hzone⟩, ⟨next, hnext⟩, hlabels, hchain⟩

/-- Classes without issues over a range follow each other from its start to its end. -/
theorem classes_eq_nil {range : ScoreRange} {cs : List RiskClass} (hne : cs ≠ []) :
    classIssues none cs = [] ∧ rangeIssues range cs = [] ↔
      Follow range.min cs (range.max + 1) ∧ Faces cs := by
  obtain ⟨c, rest, rfl⟩ := List.exists_cons_of_ne_nil hne
  unfold classIssues rangeIssues Faces
  simp only [List.append_eq_nil_iff, issueIf_eq_nil, classIssues_some_eq_nil, spans_cons_iff,
    List.forall_mem_cons, not_lt, not_and, not_or, not_not, ne_eq, List.length_cons,
    List.head?_cons, Option.map_some, Option.some.injEq, List.append_nil]
  constructor
  · rintro ⟨⟨⟨horder, hlabel⟩, ⟨next, hnext⟩, hlabels, hchain⟩, hrange⟩
    obtain ⟨hfirst, hlast⟩ := hrange (Nat.succ_pos _)
    have hspans : Follow c.min (c :: rest) next := .cons rfl horder hnext
    rw [hspans.getLast hne, Option.some.injEq] at hlast
    have hend : next = range.max + 1 := by omega
    exact ⟨⟨hfirst, by omega, hend ▸ hnext⟩, ⟨hlabel, hlabels⟩, hchain⟩
  · rintro ⟨⟨hfirst, horder, hnext⟩, ⟨hlabel, hlabels⟩, hchain⟩
    have hspans : Follow c.min (c :: rest) (range.max + 1) := .cons rfl (by omega) hnext
    refine ⟨⟨⟨by omega, hlabel⟩, ⟨_, hnext⟩, hlabels, hchain⟩, fun _ => ⟨hfirst, ?_⟩⟩
    rw [hspans.getLast hne, add_sub_cancel_right]

theorem matrixIssues_mem {m : RiskMethod} {issue : RiskMethodIssue} (h : issue ∈ matrixIssues m) :
    m.aggregation = .matrix ∧ issue = .matrixInvalid := by
  unfold matrixIssues issueIf at h
  dsimp only at h
  cases hagg : m.aggregation with
  | matrix =>
    rw [hagg] at h
    refine ⟨rfl, ?_⟩
    cases hrows : m.matrix with
    | none => simpa [hrows] using h
    | some rows =>
      simp only [hrows] at h
      split_ifs at h
      · exact List.mem_singleton.mp h
      · cases h
  | sum => rw [hagg] at h; cases h
  | product => rw [hagg] at h; cases h

theorem matrixInvalid_not_mem_classIssues (prev : Option RiskClass) (cs : List RiskClass) :
    RiskMethodIssue.matrixInvalid ∉ classIssues prev cs := by
  induction cs generalizing prev with
  | nil => simp [classIssues]
  | cons c cs ih => cases prev <;> simp [classIssues, issueIf, ih]

/-- The issues of a method but those of its matrix. -/
def plainIssues (m : RiskMethod) : List RiskMethodIssue :=
  issueIf (m.classes.length < 2) .noClasses ++ classIssues none m.classes ++
    rangeIssues (scoreRange m.basis) m.classes ++ textIssues m

theorem validate_eq (m : RiskMethod) :
    validateRiskMethod m = distinct (plainIssues m ++ matrixIssues m) := rfl

theorem matrixInvalid_not_mem_plainIssues (m : RiskMethod) :
    RiskMethodIssue.matrixInvalid ∉ plainIssues m := by
  have hclasses := matrixInvalid_not_mem_classIssues none m.classes
  simp [plainIssues, issueIf, rangeIssues, textIssues, hclasses]

theorem plainIssues_eq_nil {m : RiskMethod} :
    plainIssues m = [] ↔ 2 ≤ m.classes.length ∧
      Follow (scoreRange m.basis).min m.classes ((scoreRange m.basis).max + 1) ∧
      Faces m.classes ∧ textIssues m = [] := by
  unfold plainIssues
  simp only [List.append_eq_nil_iff, issueIf_eq_nil, not_lt]
  constructor
  · rintro ⟨⟨⟨hlength, hclasses⟩, hrange⟩, htext⟩
    have hne : m.classes ≠ [] := List.ne_nil_of_length_pos (by omega)
    obtain ⟨hfollow, hfaces⟩ := (classes_eq_nil hne).mp ⟨hclasses, hrange⟩
    exact ⟨hlength, hfollow, hfaces, htext⟩
  · rintro ⟨hlength, hfollow, hfaces, htext⟩
    have hne : m.classes ≠ [] := List.ne_nil_of_length_pos (by omega)
    obtain ⟨hclasses, hrange⟩ := (classes_eq_nil hne).mpr ⟨hfollow, hfaces⟩
    exact ⟨⟨⟨hlength, hclasses⟩, hrange⟩, htext⟩

/-- Nothing but the fields of the matrix can be wrong with a method exactly where its
classes follow each other over its range and its texts are there. -/
theorem validate_but_matrix {m : RiskMethod} :
    (∀ issue ∈ validateRiskMethod m, m.aggregation = .matrix ∧ issue = .matrixInvalid) ↔
      2 ≤ m.classes.length ∧ Follow (scoreRange m.basis).min m.classes
        ((scoreRange m.basis).max + 1) ∧ Faces m.classes ∧ textIssues m = [] := by
  rw [← plainIssues_eq_nil, validate_eq]
  simp only [mem_distinct, List.mem_append, List.eq_nil_iff_forall_not_mem]
  constructor
  · intro h issue hissue
    have hmatrix := (h issue (.inl hissue)).2
    subst hmatrix
    exact matrixInvalid_not_mem_plainIssues m hissue
  · rintro h issue (hissue | hissue)
    · exact absurd hissue (h issue)
    · exact matrixIssues_mem hissue

theorem of_validate {m : RiskMethod} (h : validateRiskMethod m = []) :
    2 ≤ m.classes.length ∧ Follow (scoreRange m.basis).min m.classes
      ((scoreRange m.basis).max + 1) ∧ Faces m.classes ∧ textIssues m = [] := by
  apply validate_but_matrix.mp
  rw [h]
  simp

/-! ## A change of the formula -/

theorem map_face_stretch (a b : ScoreRange) (low : ℤ) (cs : List RiskClass) :
    (stretch a b low cs).map face = cs.map face := by
  induction cs generalizing low with
  | nil => rfl
  | cons c cs ih => simp [stretch, ih, face]

theorem map_face_numbered (cs : List RiskClass) : (numbered cs).map face = cs.map face := by
  unfold numbered
  apply List.ext_getElem
  · simp
  · intro i h1 h2
    simp [face]

/-- A change of the formula moves borders only. -/
theorem map_face_rescaleClasses (cs : List RiskClass) (old new : ScoreBasis) :
    (rescaleClasses cs old new).map face = cs.map face := by
  unfold rescaleClasses
  dsimp only
  cases new.aggregation with
  | matrix => exact map_face_numbered cs
  | sum =>
    dsimp only
    split_ifs
    · rfl
    · exact map_face_stretch _ _ _ cs
  | product =>
    dsimp only
    split_ifs
    · rfl
    · exact map_face_stretch _ _ _ cs

theorem length_rescaleClasses (cs : List RiskClass) (old new : ScoreBasis) :
    (rescaleClasses cs old new).length = cs.length := by
  simpa using congrArg List.length (map_face_rescaleClasses cs old new)

theorem textIssues_changed (m : RiskMethod) (agg : Aggregation) :
    textIssues (m.changed agg) = textIssues m := by
  have hkeys := map_key_of_face (map_face_rescaleClasses m.classes m.basis
    { m with aggregation := agg }.basis)
  unfold textIssues RiskMethod.changed
  simp only [hkeys]

theorem basis_changed (m : RiskMethod) (agg : Aggregation) :
    (m.changed agg).basis = { m with aggregation := agg }.basis := by
  have hkeys := map_key_of_face (map_face_rescaleClasses m.classes m.basis
    { m with aggregation := agg }.basis)
  exact congrArg (fun keys => ScoreBasis.mk agg (some m.likelihood.length) (some keys) m.matrix)
    hkeys

/-- The classes numbered follow each other from one on. -/
theorem numbered_follow (cs : List RiskClass) : Follow 1 (numbered cs) (cs.length + 1) := by
  have h : ∀ (n : ℕ) (ds : List RiskClass),
      Follow (n + 1) (ds.mapIdx fun i c => { c with min := ↑(i + n) + 1, max := ↑(i + n) + 1 })
        (n + ds.length + 1) := by
    intro n ds
    induction ds generalizing n with
    | nil => simpa using Spans.nil _
    | cons c ds ih =>
      have hrest := ih (n + 1)
      rw [List.mapIdx_cons]
      refine .cons (by simp) (by simp) ?_
      simp only [zero_add, List.length_cons]
      convert hrest using 1
      · push_cast
        ring
      · simp only [add_assoc, add_comm 1 n]
      · push_cast
        ring
  simpa [numbered] using h 0 cs

/-- The room above a class: of a stretched border one score is left for each class above. -/
theorem stretch_follow_iff {a b : ScoreRange} {low : ℤ} {cs : List RiskClass} (hne : cs ≠ []) :
    Follow low (stretch a b low cs) (b.max + 1) ↔ low + cs.length ≤ b.max + 1 ∧
      ∀ c rest, c :: rest <:+ cs → rest ≠ [] → scale a b c.max + rest.length ≤ b.max := by
  induction cs generalizing low with
  | nil => exact absurd rfl hne
  | cons c cs ih =>
    unfold stretch
    by_cases hlast : cs = []
    · subst hlast
      simp only [if_true, stretch, spans_cons_iff, spans_nil_iff, true_and, and_true,
        List.length_singleton]
      constructor
      · intro hle
        refine ⟨by omega, fun d rest hsuffix hrest => ?_⟩
        have hnil : d = c ∧ rest = [] := by simpa [List.suffix_cons_iff] using hsuffix
        exact absurd hnil.2 hrest
      · rintro ⟨hle, -⟩
        omega
    · dsimp only
      rw [if_neg hlast]
      refine spans_cons_iff.trans ?_
      refine (and_congr_right fun _ => and_congr_right fun _ => ih hlast).trans ?_
      simp only [true_and, List.length_cons, List.suffix_cons_iff, List.cons.injEq]
      push_cast
      constructor
      · rintro ⟨-, hlength, hrest⟩
        refine ⟨by omega, ?_⟩
        rintro d rest (⟨rfl, rfl⟩ | hsuffix) hne'
        · omega
        · exact hrest d rest hsuffix hne'
      · rintro ⟨hlength, hall⟩
        have hc := hall c cs (.inl ⟨rfl, rfl⟩) hlast
        exact ⟨le_max_left _ _, by omega, fun d rest hsuffix => hall d rest (.inr hsuffix)⟩

/-- Each class but the last leaves room for the classes above it: the part of the range
above it, stretched, is more than half a score short of their number. -/
def Room (a b : ScoreRange) (classes : List RiskClass) : Prop :=
  ∀ c rest, c :: rest <:+ classes → rest ≠ [] →
    (2 * rest.length - 1) * (a.max - a.min) < 2 * (a.max - c.max) * (b.max - b.min)

theorem room_nil (a b : ScoreRange) : Room a b [] := by
  intro c rest hsuffix
  simp at hsuffix

theorem room_cons {a b : ScoreRange} {c : RiskClass} {cs : List RiskClass} :
    Room a b (c :: cs) ↔ (cs ≠ [] →
      (2 * cs.length - 1) * (a.max - a.min) < 2 * (a.max - c.max) * (b.max - b.min)) ∧
        Room a b cs := by
  unfold Room
  simp only [List.suffix_cons_iff, List.cons.injEq]
  constructor
  · intro h
    exact ⟨h c cs (.inl ⟨rfl, rfl⟩), fun d rest hsuffix => h d rest (.inr hsuffix)⟩
  · rintro ⟨hfirst, hrest⟩ d rest (⟨rfl, rfl⟩ | hsuffix)
    · exact hfirst
    · exact hrest d rest hsuffix

/-- The range of sums or of products of four or five levels. -/
def plainRange (agg : Aggregation) (n : ℤ) : ScoreRange :=
  if agg = .sum then ⟨2, 2 * n⟩ else ⟨1, n * n⟩

theorem scoreRange_plain {basis : ScoreBasis} (h : basis.aggregation ≠ .matrix) :
    scoreRange basis = plainRange basis.aggregation (levelCount basis) := by
  unfold scoreRange plainRange
  cases hagg : basis.aggregation with
  | matrix => exact absurd hagg h
  | sum => rfl
  | product => rfl

theorem plainRange_ne {agg agg' : Aggregation} {n : ℤ} (hagg : agg ≠ .matrix)
    (hagg' : agg' ≠ .matrix) (hne : agg' ≠ agg) :
    ¬ ((plainRange agg n).min = (plainRange agg' n).min ∧
      (plainRange agg n).max = (plainRange agg' n).max) := by
  cases agg <;> cases agg' <;> simp_all [plainRange]

/-- The borders between sums and products, as doubles round them. -/
theorem scale_table :
    (∀ v, 2 ≤ v → v ≤ 8 → scale ⟨2, 8⟩ ⟨1, 16⟩ v = (30 * (v - 2) + 18) / 12) ∧
    (∀ v, 1 ≤ v → v ≤ 16 → scale ⟨1, 16⟩ ⟨2, 8⟩ v = (12 * (v - 1) + 75) / 30) ∧
    (∀ v, 2 ≤ v → v ≤ 10 → scale ⟨2, 10⟩ ⟨1, 25⟩ v = (48 * (v - 2) + 24) / 16) ∧
    (∀ v, 1 ≤ v → v ≤ 25 → scale ⟨1, 25⟩ ⟨2, 10⟩ v = (16 * (v - 1) + 120) / 48) := by
  decide +kernel

/-- A stretched border leaves so many scores above it by the proportion of the ranges. -/
theorem scale_le_iff {agg agg' : Aggregation} {n : ℤ} (hn : n = 4 ∨ n = 5) (hagg : agg ≠ .matrix)
    (hagg' : agg' ≠ .matrix) (hne : agg' ≠ agg) {v k : ℤ} (hlow : (plainRange agg n).min ≤ v)
    (hhigh : v ≤ (plainRange agg n).max) :
    scale (plainRange agg n) (plainRange agg' n) v + k ≤ (plainRange agg' n).max ↔
      (2 * k - 1) * ((plainRange agg n).max - (plainRange agg n).min) <
        2 * ((plainRange agg n).max - v) * ((plainRange agg' n).max - (plainRange agg' n).min) := by
  obtain ⟨hfour, hfour', hfive, hfive'⟩ := scale_table
  cases agg with
  | matrix => exact absurd rfl hagg
  | sum =>
    cases agg' with
    | matrix => exact absurd rfl hagg'
    | sum => exact absurd rfl hne
    | product =>
      rcases hn with rfl | rfl
      · have := hfour v hlow hhigh
        simp only [plainRange, if_true, reduceCtorEq, if_false] at hlow hhigh ⊢
        norm_num at this hlow hhigh ⊢
        omega
      · have := hfive v hlow hhigh
        simp only [plainRange, if_true, reduceCtorEq, if_false] at hlow hhigh ⊢
        norm_num at this hlow hhigh ⊢
        omega
  | product =>
    cases agg' with
    | matrix => exact absurd rfl hagg'
    | product => exact absurd rfl hne
    | sum =>
      rcases hn with rfl | rfl
      · have := hfour' v hlow hhigh
        simp only [plainRange, if_true, reduceCtorEq, if_false] at hlow hhigh ⊢
        norm_num at this hlow hhigh ⊢
        omega
      · have := hfive' v hlow hhigh
        simp only [plainRange, if_true, reduceCtorEq, if_false] at hlow hhigh ⊢
        norm_num at this hlow hhigh ⊢
        omega

/-- The classes in the range of the new formula. -/
def newRange (m : RiskMethod) (agg : Aggregation) : ScoreRange :=
  scoreRange { m with aggregation := agg }.basis

/-- Whether the classes fit into the range of a formula. -/
def Fits (m : RiskMethod) (agg : Aggregation) : Prop :=
  agg = .matrix ∨ agg = m.aggregation ∨
    (m.classes.length ≤ (newRange m agg).max - (newRange m agg).min + 1 ∧
      Room (scoreRange m.basis) (newRange m agg) m.classes)

/-- After a change the method has no issue, but for the fields that a matrix lacks, and
its classes stand in the same order. -/
def StaysValid (m : RiskMethod) (agg : Aggregation) : Prop :=
  (∀ issue ∈ validateRiskMethod (m.changed agg), agg = .matrix ∧ issue = .matrixInvalid) ∧
    (m.changed agg).classes.map face = m.classes.map face

/-- With a valid method a change keeps to its range alone what can go wrong. -/
theorem staysValid_iff_follow {m : RiskMethod} (h : validateRiskMethod m = [])
    (agg : Aggregation) :
    StaysValid m agg ↔ Follow (newRange m agg).min (m.changed agg).classes
      ((newRange m agg).max + 1) := by
  obtain ⟨hlength, -, hfaces, htext⟩ := of_validate h
  have hface : (m.changed agg).classes.map face = m.classes.map face :=
    map_face_rescaleClasses _ _ _
  have hlength' : (m.changed agg).classes.length = m.classes.length :=
    length_rescaleClasses _ _ _
  have hchecked := validate_but_matrix (m := m.changed agg)
  rw [basis_changed, textIssues_changed, hlength', faces_congr hface] at hchecked
  unfold StaysValid
  refine ⟨fun hstays => (hchecked.mp hstays.1).2.1, fun hfollow => ⟨?_, hface⟩⟩
  exact hchecked.mpr ⟨hlength, hfollow, hfaces, htext⟩

theorem levelCount_of_valid {m : RiskMethod} (htext : textIssues m = []) (agg : Aggregation) :
    levelCount { m with aggregation := agg }.basis = m.likelihood.length ∧
      (m.likelihood.length = 4 ∨ m.likelihood.length = 5) := by
  unfold textIssues at htext
  simp only [List.append_eq_nil_iff, issueIf_eq_nil] at htext
  have hlevels : m.likelihood.length = 4 ∨ m.likelihood.length = 5 := by
    by_contra hnot
    exact htext.2 (.inl (not_or.mp hnot))
  refine ⟨?_, hlevels⟩
  unfold levelCount RiskMethod.basis
  rcases hlevels with h | h <;> simp [h]

/-- A change of the formula keeps a method valid exactly where its classes fit. -/
theorem staysValid_iff {m : RiskMethod} (h : validateRiskMethod m = [])
    (hagg : m.aggregation ≠ .matrix) (agg : Aggregation) : StaysValid m agg ↔ Fits m agg := by
  rw [staysValid_iff_follow h]
  obtain ⟨hlength, hfollow, -, htext⟩ := of_validate h
  have hcount := levelCount_of_valid htext agg
  have hcount' := levelCount_of_valid htext m.aggregation
  have hne : m.classes ≠ [] := List.ne_nil_of_length_pos (by omega)
  have hkeys : { m.basis with classes := some (m.classes.map (·.key)) } = m.basis := rfl
  by_cases hmatrix : agg = .matrix
  · subst hmatrix
    refine iff_of_true ?_ (.inl rfl)
    have hrange : newRange m .matrix = ⟨1, m.classes.length⟩ := by
      simp [newRange, scoreRange, RiskMethod.basis]
      omega
    rw [hrange]
    exact numbered_follow m.classes
  · have hold : scoreRange m.basis = plainRange m.aggregation m.likelihood.length := by
      rw [scoreRange_plain hagg]
      exact congrArg (fun n : ℕ => plainRange m.aggregation n) hcount'.1
    have hnew : newRange m agg = plainRange agg m.likelihood.length := by
      unfold newRange
      rw [scoreRange_plain hmatrix, hcount.1]
      rfl
    have hclasses : (m.changed agg).classes =
        if (scoreRange m.basis).min = (newRange m agg).min ∧
            (scoreRange m.basis).max = (newRange m agg).max then m.classes
        else stretch (scoreRange m.basis) (newRange m agg) (newRange m agg).min m.classes := by
      unfold RiskMethod.changed rescaleClasses
      cases agg with
      | matrix => exact absurd rfl hmatrix
      | sum => rfl
      | product => rfl
    rw [hclasses]
    by_cases hsame : agg = m.aggregation
    · refine iff_of_true ?_ (.inr (.inl hsame))
      rw [hnew, hsame, ← hold]
      simpa using hfollow
    · rw [if_neg (by rw [hold, hnew]; exact plainRange_ne hagg hmatrix hsame), stretch_follow_iff hne]
      unfold Fits
      simp only [hmatrix, hsame, false_or]
      refine and_congr (by omega) (forall₂_congr fun c rest => forall₂_congr fun hsuffix _ => ?_)
      obtain ⟨hlow, horder, hhigh⟩ := hfollow.bounds (hsuffix.subset List.mem_cons_self)
      rw [hold] at hlow hhigh ⊢
      rw [hnew]
      exact scale_le_iff (by exact_mod_cast hcount.2) hagg hmatrix hsame (hlow.trans horder)
        (by omega)

/-! ## The class of a pair of levels -/

theorem mathRound_mono {p q : ℚ} (h : p ≤ q) : mathRound p ≤ mathRound q := by
  unfold mathRound
  apply Int.floor_le_floor
  linarith

theorem clampLevel_bounds (n : Option ℚ) {top : ℕ} (htop : 1 ≤ top) :
    1 ≤ clampLevel n top ∧ clampLevel n top ≤ top := by
  unfold clampLevel
  dsimp only
  omega

theorem clampLevel_mono {p q : ℚ} (top : ℕ) (h : p ≤ q) :
    clampLevel (some p) top ≤ clampLevel (some q) top := by
  have := mathRound_mono h
  unfold clampLevel
  simp only [Option.getD_some]
  omega

/-- A level stands for itself. -/
theorem clampLevel_natCast {l top : ℕ} (h : 1 ≤ l) (htop : l ≤ top) :
    clampLevel (some l) top = l := by
  have hround : mathRound (l : ℚ) = l := by
    unfold mathRound
    rw [Int.floor_eq_iff]
    push_cast
    constructor <;> linarith
  unfold clampLevel
  simp only [Option.getD_some, hround]
  omega

theorem levelCount_pos (basis : ScoreBasis) : 1 ≤ levelCount basis := by
  unfold levelCount
  split_ifs <;> norm_num

/-- The value of a pair lies in the range of the method. -/
theorem aggregate_bounds (l i : Option ℚ) (m : RiskMethod) :
    (scoreRange m.basis).min ≤ aggregate l i m.basis ∧
      aggregate l i m.basis ≤ (scoreRange m.basis).max := by
  have hl := clampLevel_bounds l (levelCount_pos m.basis)
  have hi := clampLevel_bounds i (levelCount_pos m.basis)
  unfold aggregate scoreRange
  dsimp only
  cases m.basis.aggregation with
  | sum =>
    dsimp only
    omega
  | product =>
    dsimp only
    constructor
    · nlinarith only [hl.1, hi.1]
    · nlinarith only [hl.1, hl.2, hi.1, hi.2]
  | matrix =>
    unfold RiskMethod.basis
    dsimp only [Option.bind_some, Option.map_some, Option.getD_some]
    split
    · rename_i idx hidx
      have := List.findIdx?_eq_some_iff_findIdx_eq.mp hidx
      omega
    · omega

/-- A score lies in a class. -/
def InClass (m : RiskMethod) (k : ℕ) (score : ℤ) : Prop :=
  ∃ c, m.classes[k]? = some c ∧ c.min ≤ score ∧ score ≤ c.max

theorem classify_index (score : ℤ) (classes : List RiskClass) :
    (classify score classes).index = (classIndex score classes).toNat := by
  unfold classify
  dsimp only
  split <;> rfl

/-- A score in the range of a valid method lies in the class that it is given, and in no other. -/
theorem classify_inClass {m : RiskMethod} (h : validateRiskMethod m = []) {score : ℤ}
    (hlow : (scoreRange m.basis).min ≤ score) (hhigh : score ≤ (scoreRange m.basis).max) :
    InClass m (classify score m.classes).index score ∧
      ∀ k, InClass m k score → k = (classify score m.classes).index := by
  obtain ⟨-, hfollow, -, -⟩ := of_validate h
  obtain ⟨k, c, hplace, hc, hmin, hmax⟩ := hfollow.has_place hlow (by omega)
  have hindex : (classify score m.classes).index = k := by
    rw [classify_index]
    unfold classIndex
    rw [hplace]
    rfl
  rw [hindex]
  refine ⟨⟨c, hc, hmin, hmax⟩, ?_⟩
  rintro j ⟨d, hd, hdmin, hdmax⟩
  exact hfollow.unique hd ⟨hdmin, hdmax⟩ hc ⟨hmin, hmax⟩

/-- A greater score is in the same class or in a later one. -/
theorem classify_index_mono {m : RiskMethod} (h : validateRiskMethod m = []) {s t : ℤ}
    (hlow : (scoreRange m.basis).min ≤ s) (hst : s ≤ t) (hhigh : t ≤ (scoreRange m.basis).max) :
    (classify s m.classes).index ≤ (classify t m.classes).index := by
  obtain ⟨-, hfollow, -, -⟩ := of_validate h
  obtain ⟨c, hc, hmin, -⟩ := (classify_inClass h hlow (by omega)).1
  obtain ⟨d, hd, -, hmax⟩ := (classify_inClass h (by omega) hhigh).1
  exact hfollow.places_le hc hmin hd hmax hst

/-- The place of the class in a field of the matrix. -/
def fieldClass (m : RiskMethod) (l i : ℕ) : Option ℕ :=
  ((m.matrix.bind fun rows => rows[l - 1]?).bind fun row => row[i - 1]?).bind fun key =>
    (m.classes.map (·.key)).findIdx? (· = key)

/-- Along rows and columns of the matrix no class is less severe. -/
def Rising (m : RiskMethod) : Prop :=
  ∀ l l' i i', 1 ≤ l → l ≤ l' → l' ≤ m.likelihood.length → 1 ≤ i → i ≤ i' →
    i' ≤ m.likelihood.length →
      ∀ j ∈ fieldClass m l i, ∀ k ∈ fieldClass m l' i', j ≤ k

theorem matrixIssues_eq_nil {m : RiskMethod} (h : matrixIssues m = [])
    (hagg : m.aggregation = .matrix) :
    ∃ rows, m.matrix = some rows ∧ rows.length = m.likelihood.length ∧
      ∀ row ∈ rows, row.length = m.likelihood.length ∧ ∀ k ∈ row, k ∈ m.classes.map (·.key) := by
  unfold matrixIssues at h
  simp only [hagg] at h
  cases hrows : m.matrix with
  | none => simp [hrows] at h
  | some rows =>
    simp only [hrows, issueIf_eq_nil, not_or, not_exists, not_and, not_not] at h
    exact ⟨rows, rfl, h.1, h.2⟩

theorem matrixIssues_of_validate {m : RiskMethod} (h : validateRiskMethod m = []) :
    matrixIssues m = [] := by
  rw [validate_eq, distinct_eq_nil] at h
  exact (List.append_eq_nil_iff.mp h).2

/-- In a valid matrix each field has a class, and its number is the value of the pair. -/
theorem aggregate_matrix {m : RiskMethod} (h : validateRiskMethod m = [])
    (hagg : m.aggregation = .matrix) {l i : Option ℚ} {x y : ℕ}
    (hx : clampLevel l (levelCount m.basis) = x) (hy : clampLevel i (levelCount m.basis) = y) :
    ∃ k, fieldClass m x y = some k ∧ aggregate l i m.basis = k + 1 := by
  obtain ⟨-, -, -, htext⟩ := of_validate h
  obtain ⟨rows, hrows, hlength, hfields⟩ :=
    matrixIssues_eq_nil (matrixIssues_of_validate h) hagg
  have hcount : levelCount m.basis = m.likelihood.length :=
    (levelCount_of_valid htext m.aggregation).1
  have hlevel := clampLevel_bounds l (levelCount_pos m.basis)
  have hlevel' := clampLevel_bounds i (levelCount_pos m.basis)
  rw [hx, hcount] at hlevel
  rw [hy, hcount] at hlevel'
  have hrow : x - 1 < rows.length := by omega
  have hfield := hfields rows[x - 1] (List.getElem_mem hrow)
  have hcolumn : y - 1 < rows[x - 1].length := by omega
  have hkey := hfield.2 _ (List.getElem_mem hcolumn)
  have hx1 : ((x : ℤ) - 1).toNat = x - 1 := by omega
  have hy1 : ((y : ℤ) - 1).toNat = y - 1 := by omega
  have hfound : ∃ k, (m.classes.map (·.key)).findIdx? (· = rows[x - 1][y - 1]) = some k := by
    cases hnone : (m.classes.map (·.key)).findIdx? (· = rows[x - 1][y - 1]) with
    | some k => exact ⟨k, rfl⟩
    | none =>
      rw [List.findIdx?_eq_none_iff] at hnone
      exact absurd (hnone _ hkey) (by simp)
  obtain ⟨k, hk⟩ := hfound
  refine ⟨k, ?_, ?_⟩
  · unfold fieldClass
    simp only [hrows, Option.bind_some, List.getElem?_eq_getElem hrow,
      List.getElem?_eq_getElem hcolumn, hk]
  · unfold aggregate
    dsimp only
    rw [hx, hy]
    simp only [RiskMethod.basis, hagg, hrows, Option.bind_some, hx1, hy1,
      List.getElem?_eq_getElem hrow, List.getElem?_eq_getElem hcolumn, Option.some.injEq, hk]

/-- With a matrix the class of a value is the one of that number. -/
theorem classify_index_matrix {m : RiskMethod} (h : validateRiskMethod m = [])
    (hagg : m.aggregation = .matrix) {score : ℤ} (hlow : (scoreRange m.basis).min ≤ score)
    (hhigh : score ≤ (scoreRange m.basis).max) :
    score = (classify score m.classes).index + 1 := by
  obtain ⟨hlength, hfollow, -, -⟩ := of_validate h
  obtain ⟨c, hc, hmin, hmax⟩ := (classify_inClass h hlow hhigh).1
  have hrange : scoreRange m.basis = ⟨1, m.classes.length⟩ := by
    simp [scoreRange, RiskMethod.basis, hagg]
    omega
  rw [hrange] at hfollow
  have := hfollow.singletons (by dsimp only; omega) hc
  dsimp only at this
  omega

/-- The place of the class that a pair of levels gets. -/
def classOf (m : RiskMethod) (l i : ℚ) : ℕ :=
  (classify (aggregate (some l) (some i) m.basis) m.classes).index

theorem classOf_matrix {m : RiskMethod} (h : validateRiskMethod m = [])
    (hagg : m.aggregation = .matrix) {l i : ℚ} {x y : ℕ}
    (hx : clampLevel (some l) (levelCount m.basis) = x)
    (hy : clampLevel (some i) (levelCount m.basis) = y) :
    fieldClass m x y = some (classOf m l i) := by
  obtain ⟨k, hk, haggregate⟩ := aggregate_matrix h hagg hx hy
  have hbounds := aggregate_bounds (some l) (some i) m
  have hindex := classify_index_matrix h hagg hbounds.1 hbounds.2
  rw [hk, classOf]
  congr 1
  omega

theorem aggregate_mono {m : RiskMethod} (hagg : m.aggregation ≠ .matrix) {l l' i i' : ℚ}
    (hl : l ≤ l') (hi : i ≤ i') :
    aggregate (some l) (some i) m.basis ≤ aggregate (some l') (some i') m.basis := by
  have hlevel := clampLevel_mono (levelCount m.basis) hl
  have hlevel' := clampLevel_mono (levelCount m.basis) hi
  have hpos := (clampLevel_bounds (some l) (levelCount_pos m.basis)).1
  have hpos' := (clampLevel_bounds (some i) (levelCount_pos m.basis)).1
  have hbasis : m.basis.aggregation = m.aggregation := rfl
  unfold aggregate
  dsimp only
  cases h : m.aggregation with
  | matrix => exact absurd h hagg
  | sum =>
    simp only [hbasis, h]
    omega
  | product =>
    simp only [hbasis, h]
    exact Int.mul_le_mul hlevel hlevel' (by omega) (by omega)

/-- The class of a pair never gets less severe with its levels, where the fields of the
matrix, if there is one, do not. -/
theorem classOf_mono_iff {m : RiskMethod} (h : validateRiskMethod m = []) :
    (∀ l l' i i' : ℚ, l ≤ l' → i ≤ i' → classOf m l i ≤ classOf m l' i') ↔
      (m.aggregation = .matrix → Rising m) := by
  obtain ⟨-, -, -, htext⟩ := of_validate h
  have hcount : levelCount m.basis = m.likelihood.length :=
    (levelCount_of_valid htext m.aggregation).1
  by_cases hagg : m.aggregation = .matrix
  · constructor
    · intro hmono _ l l' i i' hl hll hl' hi hii hi' j hj k hk
      have hclass := classOf_matrix h hagg (clampLevel_natCast hl (by omega))
        (clampLevel_natCast hi (by omega))
      have hclass' := classOf_matrix h hagg (clampLevel_natCast (hl.trans hll) (by omega))
        (clampLevel_natCast (hi.trans hii) (by omega))
      rw [Option.mem_def, hclass, Option.some.injEq] at hj
      rw [Option.mem_def, hclass', Option.some.injEq] at hk
      have := hmono l l' i i' (by exact_mod_cast hll) (by exact_mod_cast hii)
      omega
    · intro hrising l l' i i' hl hi
      have hlevel := clampLevel_mono (levelCount m.basis) hl
      have hlevel' := clampLevel_mono (levelCount m.basis) hi
      have hbounds (p : ℚ) := clampLevel_bounds (some p) (levelCount_pos m.basis)
      have hnat (p : ℚ) : clampLevel (some p) (levelCount m.basis) =
          (clampLevel (some p) (levelCount m.basis)).toNat := by
        have := hbounds p
        omega
      have hl0 := hbounds l
      have hl1 := hbounds l'
      have hi0 := hbounds i
      have hi1 := hbounds i'
      exact hrising hagg _ _ _ _ (by omega) (Int.toNat_le_toNat hlevel) (by omega) (by omega)
        (Int.toNat_le_toNat hlevel') (by omega) _ (classOf_matrix h hagg (hnat l) (hnat i)) _
        (classOf_matrix h hagg (hnat l') (hnat i'))
  · refine iff_of_true (fun l l' i i' hl hi => ?_) (fun hmatrix => absurd hmatrix hagg)
    exact classify_index_mono h (aggregate_bounds _ _ m).1 (aggregate_mono hagg hl hi)
      (aggregate_bounds _ _ m).2

/-! ## The laws of a method -/

/-- When a change of the formula keeps a method valid, that each pair of levels has one
class, and when this class rises with the levels. -/
theorem riskMethod_laws {m : RiskMethod} (h : validateRiskMethod m = []) :
    (m.aggregation ≠ .matrix → ∀ agg, StaysValid m agg ↔ Fits m agg) ∧
    (∀ l i : Option ℚ,
      InClass m (classify (aggregate l i m.basis) m.classes).index (aggregate l i m.basis) ∧
        ∀ k, InClass m k (aggregate l i m.basis) →
          k = (classify (aggregate l i m.basis) m.classes).index) ∧
    ((∀ l l' i i' : ℚ, l ≤ l' → i ≤ i' → classOf m l i ≤ classOf m l' i') ↔
      (m.aggregation = .matrix → Rising m)) :=
  ⟨staysValid_iff h, fun l i => classify_inClass h (aggregate_bounds l i m).1
    (aggregate_bounds l i m).2, classOf_mono_iff h⟩

/-- A method of products with short texts and the given classes. -/
def productMethod (classes : List RiskClass) : RiskMethod :=
  ⟨.product, List.replicate 5 ⟨[97], []⟩, List.replicate 5 [97],
    [⟨[98], [98], true, List.replicate 5 []⟩], classes, none⟩

/-- Classes up to 4, up to 9 and up to 25. -/
def threeClasses : List RiskClass :=
  [⟨[99], [99], 1, 4, .acceptable, [], none⟩, ⟨[100], [100], 5, 9, .tolerable, [], none⟩,
    ⟨[101], [101], 10, 25, .unacceptable, [], none⟩]

/-- Classes up to 23, of 24 alone and of 25 alone. -/
def narrowClasses : List RiskClass :=
  [⟨[99], [99], 1, 23, .acceptable, [], none⟩, ⟨[100], [100], 24, 24, .tolerable, [], none⟩,
    ⟨[101], [101], 25, 25, .unacceptable, [], none⟩]

/-- The method with classes up to 4, 9 and 25 stays valid with sums. -/
theorem threeClasses_stay : StaysValid (productMethod threeClasses) .sum := by
  have h : validateRiskMethod (productMethod threeClasses) = [] := by decide
  refine ((riskMethod_laws h).1 nofun .sum).mpr (.inr (.inr ⟨by decide, ?_⟩))
  have hnew : newRange (productMethod threeClasses) .sum = ⟨2, 10⟩ := by decide
  have hold : scoreRange (productMethod threeClasses).basis = ⟨1, 25⟩ := by decide
  rw [hnew, hold]
  simp [productMethod, threeClasses, room_cons, room_nil]

/-- The method with classes up to 23, 24 and 25 does not: of the sums the last class would
start behind its end. -/
theorem narrowClasses_collapse :
    validateRiskMethod (productMethod narrowClasses) = [] ∧
      ¬ StaysValid (productMethod narrowClasses) .sum := by
  have h : validateRiskMethod (productMethod narrowClasses) = [] := by decide
  refine ⟨h, ?_⟩
  rw [staysValid_iff h nofun]
  have hnew : newRange (productMethod narrowClasses) .sum = ⟨2, 10⟩ := by decide
  have hold : scoreRange (productMethod narrowClasses).basis = ⟨1, 25⟩ := by decide
  rintro (hmatrix | hsame | ⟨-, hroom⟩)
  · cases hmatrix
  · cases hsame
  · rw [hnew, hold] at hroom
    simp [productMethod, narrowClasses, room_cons, room_nil] at hroom

end Klick.Risk
