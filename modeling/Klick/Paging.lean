-- Pages of a table by the keys of its rows, newest first: a cursor is the key of the last row
-- shown, and the next page takes the newest rows below it.
import Mathlib

namespace Paging

variable {α K : Type} [LinearOrder K] (key : α → K)

/-- A row lies below a cursor; without one every row does. -/
def Below (cursor : Option K) (a : α) : Prop := ∀ k ∈ cursor, key a < k

instance (cursor : Option K) : DecidablePred (Below key cursor) := fun a =>
  match cursor with
  | none => .isTrue nofun
  | some k => decidable_of_iff (key a < k) (by simp [Below])

/-- `WHERE key < cursor ORDER BY key DESC` -/
def newest (cursor : Option K) (table : List α) : List α :=
  (table.filter (Below key cursor)).insertionSort fun a b => key b ≤ key a

/-- The cursor after some rows were taken from the front. -/
def cursorAfter (cursor : Option K) (taken : List α) : Option K :=
  match taken.getLast? with
  | some a => some (key a)
  | none => cursor

variable {key}

theorem mem_newest {cursor : Option K} {table : List α} {a : α} :
    a ∈ newest key cursor table ↔ a ∈ table ∧ Below key cursor a := by
  simp [newest]

theorem newest_perm (cursor : Option K) (table : List α) :
    (newest key cursor table).Perm (table.filter (Below key cursor)) :=
  List.perm_insertionSort _ _

/-- Where no two rows share a key, the rows descend. -/
theorem newest_descends (cursor : Option K) {table : List α} (h : (table.map key).Nodup) :
    (newest key cursor table).Pairwise fun a b => key b < key a := by
  have hle : (newest key cursor table).Pairwise fun a b => key b ≤ key a := by
    have : Std.Total fun a b : α => key b ≤ key a := ⟨fun a b => le_total _ _⟩
    have : IsTrans α fun a b => key b ≤ key a := ⟨fun a b c hab hbc => hbc.trans hab⟩
    exact List.pairwise_insertionSort _ _
  have hne : (newest key cursor table).Pairwise fun a b => key a ≠ key b := by
    have hnodup : ((newest key cursor table).map key).Nodup :=
      ((newest_perm cursor table).map key).nodup_iff.mpr
        (h.sublist (List.filter_sublist.map key))
    exact List.pairwise_map.mp hnodup
  exact (hle.and hne).imp fun h => lt_of_le_of_ne h.1 (Ne.symm h.2)

theorem nodup_of_descends {l : List α} (h : l.Pairwise fun a b => key b < key a) : l.Nodup := by
  apply h.imp
  rintro a b hlt rfl
  exact lt_irrefl _ hlt

/-- Rows that descend are in one order only. -/
theorem eq_of_descends {l l' : List α} (h : l.Pairwise fun a b => key b < key a)
    (h' : l'.Pairwise fun a b => key b < key a) (hmem : ∀ a, a ∈ l ↔ a ∈ l') : l = l' := by
  have hperm := (List.perm_ext_iff_of_nodup (nodup_of_descends h) (nodup_of_descends h')).mpr hmem
  exact hperm.eq_of_pairwise (fun a b _ _ hab hba => absurd (hab.trans hba) (lt_irrefl _)) h h'

/-- Tables with the same rows below a cursor give the same page. -/
theorem newest_congr {cursor : Option K} {table table' : List α} (h : (table.map key).Nodup)
    (h' : (table'.map key).Nodup) (hsame : ∀ a, Below key cursor a → (a ∈ table ↔ a ∈ table')) :
    newest key cursor table = newest key cursor table' := by
  have hdesc := newest_descends cursor h
  have hdesc' := newest_descends cursor h'
  have hmem : ∀ a, a ∈ newest key cursor table ↔ a ∈ newest key cursor table' := by
    intro a
    rw [mem_newest, mem_newest]
    exact and_congr_left (hsame a)
  exact eq_of_descends hdesc hdesc' hmem

/-- A row that is taken does not lie below the cursor after it. -/
theorem not_below_of_taken {cursor : Option K} {l : List α}
    (h : l.Pairwise fun a b => key b < key a) {a : α} (ha : a ∈ l) :
    ¬ Below key (cursorAfter key cursor l) a := by
  obtain ⟨front, last, rfl⟩ : ∃ front last, l = front ++ [last] := by
    rcases List.eq_nil_or_concat' l with rfl | ⟨front, last, rfl⟩
    · cases ha
    · exact ⟨front, last, rfl⟩
  intro hbelow
  have hlt : key a < key last := hbelow (key last) (by simp [cursorAfter])
  rcases List.mem_append.mp ha with hfront | hlast
  · exact lt_asymm hlt ((List.pairwise_append.mp h).2.2 a hfront last (by simp))
  · rw [List.mem_singleton.mp hlast] at hlt
    exact lt_irrefl _ hlt

/-- A row that comes after those taken lies below the cursor after them. -/
theorem below_of_left {cursor : Option K} {taken left : List α}
    (h : (taken ++ left).Pairwise fun a b => key b < key a)
    (hbelow : ∀ a ∈ taken ++ left, Below key cursor a) {a : α} (ha : a ∈ left) :
    Below key (cursorAfter key cursor taken) a := by
  unfold cursorAfter
  cases hlast : taken.getLast? with
  | none => exact hbelow a (List.mem_append_right _ ha)
  | some b =>
    rintro k ⟨⟩
    exact (List.pairwise_append.mp h).2.2 b (List.mem_of_getLast? hlast) a ha

/-- Below the cursor after some rows is below the one before. -/
theorem below_of_after {cursor : Option K} {taken : List α}
    (htaken : ∀ b ∈ taken, Below key cursor b) {a : α}
    (h : Below key (cursorAfter key cursor taken) a) : Below key cursor a := by
  unfold cursorAfter at h
  cases hlast : taken.getLast? with
  | none =>
    rw [hlast] at h
    exact h
  | some b =>
    rw [hlast] at h
    intro k hk
    exact (h (key b) rfl).trans (htaken b (List.mem_of_getLast? hlast) k hk)

/-- What is left after some rows were taken is what the next cursor finds. -/
theorem newest_after {cursor : Option K} {table taken left : List α} (h : (table.map key).Nodup)
    (hsplit : newest key cursor table = taken ++ left) :
    newest key (cursorAfter key cursor taken) table = left := by
  have hdesc := newest_descends cursor h
  have hmem : ∀ a ∈ taken ++ left, Below key cursor a := fun a ha =>
    (mem_newest.mp (hsplit ▸ ha)).2
  rw [hsplit] at hdesc
  have hparts := List.pairwise_append.mp hdesc
  have hsame : ∀ a, a ∈ newest key (cursorAfter key cursor taken) table ↔ a ∈ left := by
    intro a
    rw [mem_newest]
    constructor
    · rintro ⟨ha, hafter⟩
      have hbefore := below_of_after (fun b hb => hmem b (List.mem_append_left _ hb)) hafter
      have hin : a ∈ taken ++ left := hsplit ▸ mem_newest.mpr ⟨ha, hbefore⟩
      rcases List.mem_append.mp hin with htaken | hleft
      · exact absurd hafter (not_below_of_taken hparts.1 htaken)
      · exact hleft
    · intro ha
      have hin : a ∈ newest key cursor table := hsplit ▸ List.mem_append_right _ ha
      exact ⟨(mem_newest.mp hin).1, below_of_left hdesc hmem ha⟩
  exact eq_of_descends (newest_descends _ h) hparts.2.1 hsame

/-! ## A walk over a table that grows -/

variable (key)

/-- The rows shown from a cursor on, where each page takes so many of the newest below it from
the table of its time. -/
def shown (tables : ℕ → List α) : ℕ → Option K → List ℕ → List α
  | _, _, [] => []
  | k, cursor, i :: cuts =>
    let taken := (newest key cursor (tables k)).take i
    taken ++ shown tables (k + 1) (cursorAfter key cursor taken) cuts

/-- The last page takes all that is left. -/
def Complete (tables : ℕ → List α) : ℕ → Option K → List ℕ → Prop
  | _, _, [] => False
  | k, cursor, [i] => (newest key cursor (tables k)).length ≤ i
  | k, cursor, i :: cuts =>
    Complete tables (k + 1) (cursorAfter key cursor ((newest key cursor (tables k)).take i)) cuts

variable {key}

/-- **A complete walk shows each row below its cursor once, and no other row, whatever rows are
added on the way.** -/
theorem shown_once [DecidableEq α] {tables : ℕ → List α}
    (hdistinct : ∀ k, ((tables k).map key).Nodup) (hgrows : ∀ k, tables k ⊆ tables (k + 1)) {k : ℕ}
    {cursor : Option K} {cuts : List ℕ} (h : Complete key tables k cursor cuts) (a : α) :
    (a ∈ tables k → Below key cursor a → (shown key tables k cursor cuts).count a = 1) ∧
      (¬ Below key cursor a → (shown key tables k cursor cuts).count a = 0) ∧
      (shown key tables k cursor cuts).count a ≤ 1 := by
  induction cuts generalizing k cursor with
  | nil => exact h.elim
  | cons i cuts ih =>
    have hdesc := newest_descends cursor (hdistinct k)
    have hnodup := nodup_of_descends hdesc
    cases cuts with
    | nil =>
      have hall : shown key tables k cursor [i] = newest key cursor (tables k) := by
        change (newest key cursor (tables k)).take i ++ [] = _
        rw [List.append_nil, List.take_of_length_le h]
      rw [hall]
      refine ⟨fun ha hb => ?_, fun hb => ?_, List.nodup_iff_count_le_one.mp hnodup a⟩
      · exact List.count_eq_one_of_mem hnodup (mem_newest.mpr ⟨ha, hb⟩)
      · exact List.count_eq_zero_of_not_mem fun ha => hb (mem_newest.mp ha).2
    | cons j cuts =>
      obtain ⟨hin, hout, hle⟩ := ih h
      have hsplit := (List.take_append_drop i (newest key cursor (tables k))).symm
      generalize htaken : (newest key cursor (tables k)).take i = taken at *
      have hshown : shown key tables k cursor (i :: j :: cuts) =
          taken ++ shown key tables (k + 1) (cursorAfter key cursor taken) (j :: cuts) := by
        rw [← htaken]
        rfl
      have hmem : ∀ b ∈ newest key cursor (tables k), Below key cursor b := fun b hb =>
        (mem_newest.mp hb).2
      rw [hshown, List.count_append]
      rw [hsplit] at hdesc hmem hnodup
      have hfront : ∀ b ∈ taken, Below key cursor b := fun b hb =>
        hmem b (List.mem_append_left _ hb)
      by_cases ha : a ∈ taken
      · have hone := List.count_eq_one_of_mem (List.nodup_append.mp hnodup).1 ha
        rw [hone, hout (not_below_of_taken (List.pairwise_append.mp hdesc).1 ha)]
        exact ⟨fun _ _ => rfl, fun hb => absurd (hfront a ha) hb, le_rfl⟩
      · rw [List.count_eq_zero_of_not_mem ha, Nat.zero_add]
        refine ⟨fun htable hb => ?_, fun hb => ?_, hle⟩
        · apply hin (hgrows k htable)
          apply below_of_left hdesc hmem
          have hnew : a ∈ newest key cursor (tables k) := mem_newest.mpr ⟨htable, hb⟩
          rw [hsplit] at hnew
          exact (List.mem_append.mp hnew).resolve_left ha
        · exact hout fun hafter => hb (below_of_after hfront hafter)

/-- A walk over a table that stays as it is shows it in its order. -/
theorem shown_eq_newest {table : List α} (hdistinct : (table.map key).Nodup) {k : ℕ}
    {cursor : Option K} {cuts : List ℕ} (h : Complete key (fun _ => table) k cursor cuts) :
    shown key (fun _ => table) k cursor cuts = newest key cursor table := by
  induction cuts generalizing k cursor with
  | nil => exact h.elim
  | cons i cuts ih =>
    cases cuts with
    | nil =>
      change (newest key cursor table).take i ++ [] = _
      rw [List.append_nil, List.take_of_length_le h]
    | cons j cuts =>
      have hsplit := (List.take_append_drop i (newest key cursor table)).symm
      change (newest key cursor table).take i ++ shown key _ (k + 1) _ (j :: cuts) = _
      rw [ih h, newest_after hdistinct hsplit, List.take_append_drop]

/-! ## Rows that are added on the way -/

/-- Rows above a row that is there do not change what lies below it. -/
theorem newest_of_newer {tables : ℕ → List α}
    (hdistinct : ∀ k, ((tables k).map key).Nodup) (hgrows : ∀ k, tables k ⊆ tables (k + 1))
    (hnewer : ∀ k, ∀ row ∈ tables (k + 1), row ∈ tables k ∨ ∀ old ∈ tables k, key old < key row)
    {k : ℕ} {cursor : Option K} (hcursor : ∃ row ∈ tables k, cursor = some (key row)) :
    ∀ k' ≥ k, newest key cursor (tables k') = newest key cursor (tables k) := by
  obtain ⟨row, hrow, rfl⟩ := hcursor
  intro k' hk'
  have hboth : row ∈ tables k' ∧
      newest key (some (key row)) (tables k') = newest key (some (key row)) (tables k) := by
    induction k', hk' using Nat.le_induction with
    | base => exact ⟨hrow, rfl⟩
    | succ k' hk' ih =>
      refine ⟨hgrows k' ih.1, ih.2 ▸ newest_congr (hdistinct _) (hdistinct _) ?_⟩
      intro a hbelow
      refine ⟨fun ha => ?_, fun ha => hgrows k' ha⟩
      rcases hnewer k' a ha with hthere | hnew
      · exact hthere
      · exact absurd (hnew row ih.1) (lt_asymm (hbelow _ rfl))
  exact hboth.2

theorem taken_split {l taken : List α} (h : taken = l.take taken.length) :
    l = taken ++ l.drop taken.length := by
  have hsplit := List.take_append_drop taken.length l
  rw [← h] at hsplit
  exact hsplit.symm

/-- What the next page finds is the same too. -/
theorem newest_next {table base : List α}
    (h : (table.map key).Nodup) (hbase : (base.map key).Nodup) {cursor : Option K}
    (hsame : newest key cursor table = newest key cursor base) {taken : List α}
    (htaken : taken = (newest key cursor base).take taken.length) :
    newest key (cursorAfter key cursor taken) table =
      newest key (cursorAfter key cursor taken) base := by
  have hsplit := taken_split htaken
  rw [newest_after hbase hsplit, newest_after h (hsame.trans hsplit)]

/-- The next page has so many rows less before it. -/
theorem newest_length_next {base : List α}
    (hbase : (base.map key).Nodup) {cursor : Option K} {taken : List α}
    (htaken : taken = (newest key cursor base).take taken.length) :
    (newest key (cursorAfter key cursor taken) base).length + taken.length =
      (newest key cursor base).length := by
  have hsplit := taken_split htaken
  rw [newest_after hbase hsplit]
  conv_rhs => rw [hsplit]
  rw [List.length_append, Nat.add_comm]

end Paging
