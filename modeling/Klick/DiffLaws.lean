-- The comparison of two versions loses nothing: the lines that stay and go are those of the
-- old version, the lines that stay and come those of the new one; and what the display pairs
-- and leaves out can be filled in again.
import Klick.DocumentDiff

open Js EditScript

namespace Klick.Diff

/-! ## Common ends -/

theorem take_commonLength (a b : List Text) :
    a.take (commonLength a b) = b.take (commonLength a b) := by
  fun_induction commonLength a b with
  | case1 x xs ys ih => rw [List.take_succ_cons, List.take_succ_cons, ih]
  | case2 x xs y ys hne => rfl
  | case3 a b h => rfl

theorem commonLength_le (a b : List Text) :
    commonLength a b ≤ a.length ∧ commonLength a b ≤ b.length := by
  fun_induction commonLength a b with
  | case1 x xs ys ih =>
    rw [List.length_cons, List.length_cons]
    omega
  | case2 => simp
  | case3 => simp

theorem take_reverse_suffix (a : List Text) (n : ℕ) :
    (a.reverse.take n).reverse = a.drop (a.length - n) := by
  rw [List.take_reverse, List.reverse_reverse]

/-- The parts that `diffRange` takes apart are the whole. -/
theorem split_ends (a b : List Text) :
    let ends := commonEnds a b
    a = a.take ends.1 ++ (middle ends a ++ a.drop (a.length - ends.2)) ∧
      b = a.take ends.1 ++ (middle ends b ++ a.drop (a.length - ends.2)) ∧
      ends.1 + ends.2 ≤ a.length ∧ ends.1 + ends.2 ≤ b.length := by
  intro ends
  have hstart := commonLength_le a b
  have hend := commonLength_le (a.drop (commonLength a b)).reverse
    (b.drop (commonLength a b)).reverse
  simp only [List.length_reverse, List.length_drop] at hend
  have hfirst : ends.1 = commonLength a b := rfl
  have hlast : ends.2 = commonLength (a.drop (commonLength a b)).reverse
    (b.drop (commonLength a b)).reverse := rfl
  have hboth : ∀ c : List Text, ends.1 + ends.2 ≤ c.length →
      c = c.take ends.1 ++ (middle ends c ++ c.drop (c.length - ends.2)) := by
    intro c hc
    have hdrop : c.drop (c.length - ends.2) = (c.drop ends.1).drop (c.length - ends.2 - ends.1) := by
      rw [List.drop_drop]
      congr 1
      omega
    rw [middle, hdrop, List.take_append_drop, List.take_append_drop]
  have hsuffix : b.drop (b.length - ends.2) = a.drop (a.length - ends.2) := by
    have htake := take_commonLength (a.drop (commonLength a b)).reverse
      (b.drop (commonLength a b)).reverse
    rw [← hlast, ← hfirst] at htake
    have hback := congrArg List.reverse htake
    rw [take_reverse_suffix, take_reverse_suffix, List.drop_drop, List.drop_drop,
      List.length_drop, List.length_drop] at hback
    have ha : ends.1 + (a.length - ends.1 - ends.2) = a.length - ends.2 := by omega
    have hb : ends.1 + (b.length - ends.1 - ends.2) = b.length - ends.2 := by omega
    rw [ha, hb] at hback
    exact hback.symm
  refine ⟨hboth a (by omega), ?_, by omega, by omega⟩
  conv_lhs => rw [hboth b (by omega), hsuffix, hfirst, ← take_commonLength]
  rw [hfirst]

/-! ## Anchors -/

/-- Places where two lists agree, each behind the one before it. -/
inductive Ascending (a b : List Text) : ℕ → ℕ → List (ℕ × ℕ) → Prop
  | nil {ai bi : ℕ} (ha : ai ≤ a.length) (hb : bi ≤ b.length) : Ascending a b ai bi []
  | cons {ai bi x y : ℕ} {rest : List (ℕ × ℕ)} (hx : ai ≤ x) (hy : bi ≤ y) {line : Text}
    (hline : a[x]? = some line) (hsame : b[y]? = some line)
    (hrest : Ascending a b (x + 1) (y + 1) rest) : Ascending a b ai bi ((x, y) :: rest)

/-- Both places are before those of another pair. -/
def Before (p q : ℕ × ℕ) : Prop := p.1 < q.1 ∧ p.2 < q.2

/-- Chains of pairs, each of them behind the next one. -/
def Falling (chain : Chain) : Prop := chain.Pairwise fun p q => Before q p

theorem searchTails_spec (tails : List Chain) (bj : ℕ) (fuel lo hi : ℕ)
    (h : 0 < lo → ∃ p rest, tails.getD (lo - 1) [] = p :: rest ∧ p.2 < bj)
    (hpos : 0 < searchTails tails bj fuel lo hi) :
    ∃ p rest, tails.getD (searchTails tails bj fuel lo hi - 1) [] = p :: rest ∧ p.2 < bj := by
  induction fuel generalizing lo hi with
  | zero => exact h hpos
  | succ fuel ih =>
    unfold searchTails at hpos ⊢
    dsimp only at hpos ⊢
    split_ifs at hpos ⊢ with hlt hmid
    · refine ih _ _ (fun _ => ?_) hpos
      rw [Nat.add_sub_cancel]
      generalize tails.getD ((lo + hi) / 2) [] = chain at hmid
      cases chain with
      | nil => cases hmid
      | cons p rest => exact ⟨p, rest, rfl, of_decide_eq_true hmid⟩
    · exact ih _ _ h hpos
    · exact h hpos

/-- A pair goes behind a tail before it, or begins a chain. -/
theorem mem_placePair {tails : List Chain} {p : ℕ × ℕ} {chain : Chain}
    (h : chain ∈ placePair tails p) :
    chain ∈ tails ∨ chain = [p] ∨
      ∃ q rest, q :: rest ∈ tails ∧ q.2 < p.2 ∧ chain = p :: q :: rest := by
  unfold placePair at h
  dsimp only at h
  rcases List.mem_append.mp h with h | h
  · exact .inl (List.mem_of_mem_take h)
  rcases List.mem_cons.mp h with rfl | h
  · right
    split_ifs with hpos
    · right
      obtain ⟨q, rest, hget, hlt⟩ := searchTails_spec tails p.2 (tails.length + 1) 0 tails.length
        (fun h0 => absurd h0 (lt_irrefl 0)) hpos
      refine ⟨q, rest, ?_, hlt, by rw [hget]⟩
      rw [List.getD_eq_getElem?_getD] at hget
      cases hin : tails[searchTails tails p.2 (tails.length + 1) 0 tails.length - 1]? with
      | none =>
        rw [hin] at hget
        cases hget
      | some chain =>
        rw [hin, Option.getD_some] at hget
        rw [← hget]
        exact List.mem_of_getElem? hin
    · exact .inl rfl
  · exact .inl (List.mem_of_mem_drop h)

/-- Pairs that come in the order of the first list make falling chains of them. -/
theorem placePairs_falling {pairs : List (ℕ × ℕ)} (hsorted : pairs.Pairwise fun p q => p.1 < q.1)
    {chain : Chain} (h : chain ∈ pairs.foldl placePair []) :
    Falling chain ∧ ∀ p ∈ chain, p ∈ pairs := by
  induction pairs using List.reverseRecOn generalizing chain with
  | nil => cases h
  | append_singleton pairs p ih =>
    obtain ⟨hfront, -, hlast⟩ := List.pairwise_append.mp hsorted
    rw [List.foldl_append, List.foldl_cons, List.foldl_nil] at h
    have hp : p ∈ pairs ++ [p] := List.mem_append_right _ List.mem_cons_self
    rcases mem_placePair h with hold | rfl | ⟨q, rest, hq, hlt, rfl⟩
    · obtain ⟨hfalling, hmem⟩ := ih hfront hold
      exact ⟨hfalling, fun r hr => List.mem_append_left _ (hmem r hr)⟩
    · exact ⟨List.pairwise_singleton _ _, fun r hr => by rwa [List.mem_singleton.mp hr]⟩
    · obtain ⟨hfalling, hmem⟩ := ih hfront hq
      refine ⟨List.pairwise_cons.mpr ⟨fun r hr => ?_, hfalling⟩, fun r hr => ?_⟩
      · have hfirst := hlast r (hmem r hr) p List.mem_cons_self
        refine ⟨hfirst, ?_⟩
        rcases List.mem_cons.mp hr with rfl | hr
        · exact hlt
        · exact ((List.pairwise_cons.mp hfalling).1 r hr).2.trans hlt
      · rcases List.mem_cons.mp hr with rfl | hr
        · exact hp
        · exact List.mem_append_left _ (hmem r hr)

theorem mem_uniquePairs {a b : List Text} {p : ℕ × ℕ} (h : p ∈ uniquePairs a b) :
    ∃ line, a[p.1]? = some line ∧ b[p.2]? = some line := by
  obtain ⟨⟨line, i⟩, hin, hp⟩ := List.mem_filterMap.mp h
  dsimp only at hp
  split_ifs at hp with honce
  cases hp
  refine ⟨line, List.mem_zipIdx_iff_getElem?.mp hin, ?_⟩
  have hmem : line ∈ b := List.count_pos_iff.mp (by omega)
  rw [List.getElem?_eq_getElem (List.idxOf_lt_length_of_mem hmem), List.getElem_idxOf]

theorem uniquePairs_sorted (a b : List Text) :
    (uniquePairs a b).Pairwise fun p q => p.1 < q.1 := by
  have hplaces : a.zipIdx.Pairwise fun p q => p.2 < q.2 := by
    rw [List.pairwise_iff_getElem]
    intro i j hi hj hij
    simpa using hij
  apply hplaces.filterMap
  intro p q hpq p' hp' q' hq'
  dsimp only at hp' hq'
  split_ifs at hp' hq'
  cases hp'
  cases hq'
  exact hpq

theorem ascending_of_before {a b : List Text} {pairs : List (ℕ × ℕ)}
    (hsorted : pairs.Pairwise Before)
    (hagree : ∀ p ∈ pairs, ∃ line, a[p.1]? = some line ∧ b[p.2]? = some line) {ai bi : ℕ}
    (ha : ai ≤ a.length) (hb : bi ≤ b.length) (hle : ∀ p ∈ pairs, ai ≤ p.1 ∧ bi ≤ p.2) :
    Ascending a b ai bi pairs := by
  induction pairs generalizing ai bi with
  | nil => exact .nil ha hb
  | cons p pairs ih =>
    obtain ⟨hfirst, hrest⟩ := List.pairwise_cons.mp hsorted
    obtain ⟨line, hx, hy⟩ := hagree p List.mem_cons_self
    have hxlt := (List.getElem?_eq_some_iff.mp hx).1
    have hylt := (List.getElem?_eq_some_iff.mp hy).1
    obtain ⟨hlx, hly⟩ := hle p List.mem_cons_self
    refine .cons hlx hly hx hy (ih hrest (fun q hq => hagree q (List.mem_cons_of_mem _ hq))
      hxlt hylt fun q hq => ?_)
    obtain ⟨hbx, hby⟩ := hfirst q hq
    exact ⟨hbx, hby⟩

theorem anchors_ascending (a b : List Text) : Ascending a b 0 0 (anchors a b) := by
  unfold anchors
  cases hlast : ((uniquePairs a b).foldl placePair []).getLast? with
  | none =>
    rw [List.getLastD_eq_getLast?, hlast]
    exact .nil (Nat.zero_le _) (Nat.zero_le _)
  | some chain =>
    rw [List.getLastD_eq_getLast?, hlast, Option.getD_some]
    obtain ⟨hfalling, hmem⟩ := placePairs_falling (uniquePairs_sorted a b)
      (List.mem_of_getLast? hlast)
    refine ascending_of_before (List.pairwise_reverse.mpr hfalling) (fun p hp => ?_)
      (Nat.zero_le _) (Nat.zero_le _) fun p _ => ⟨Nat.zero_le _, Nat.zero_le _⟩
    exact mem_uniquePairs (hmem p (List.mem_reverse.mp hp))

/-! ## The whole difference -/

/-- A script between two lists. -/
def Between (a b : List Text) (script : List DiffLine) : Prop := before script = a ∧ after script = b

theorem between_lcs (a b : List Text) : Between a b (lcs a b) := by
  unfold lcs Between
  split_ifs
  · simp
  · exact ⟨before_walk a b, after_walk a b⟩

theorem drop_at {a : List Text} {ai x : ℕ} {line : Text} (hle : ai ≤ x)
    (hline : a[x]? = some line) : a.drop ai = (a.take x).drop ai ++ line :: a.drop (x + 1) := by
  obtain ⟨hlt, rfl⟩ := List.getElem?_eq_some_iff.mp hline
  have hrest : a.drop x = a[x] :: a.drop (x + 1) := List.drop_eq_getElem_cons hlt
  rw [← hrest]
  conv_lhs => rw [← List.take_append_drop x a]
  rw [List.drop_append_of_le_length (by rw [List.length_take]; omega)]

theorem between_pieces {rec : List Text → List Text → List DiffLine} {a b : List Text}
    (hrec : ∀ p q, p.length < a.length → Between p q (rec p q)) {ai bi : ℕ}
    {pairs : List (ℕ × ℕ)} (h : Ascending a b ai bi pairs) (hfewer : 0 < ai ∨ pairs ≠ []) :
    Between (a.drop ai) (b.drop bi) (between rec a b ai bi pairs) := by
  induction h with
  | @nil ai bi ha hb =>
    apply hrec
    rcases hfewer with hpos | hne
    · rw [List.length_drop]
      omega
    · exact absurd rfl hne
  | @cons ai bi x y rest hx hy line hline hsame _ ih =>
    have hlt := (List.getElem?_eq_some_iff.mp hline).1
    obtain ⟨hb, ha⟩ := ih (.inl (Nat.succ_pos x))
    obtain ⟨hpb, hpa⟩ := hrec ((a.take x).drop ai) ((b.take y).drop bi) (by
      rw [List.length_drop, List.length_take]
      omega)
    unfold between
    rw [drop_at hx hline, drop_at hy hsame]
    constructor
    · simp [hpb, hb, hline, Edit.old?]
    · simp [hpa, ha, hline, Edit.new?]

theorem between_diffMiddle {rec : List Text → List Text → List DiffLine} {a b : List Text}
    (hrec : ∀ p q, p.length < a.length → Between p q (rec p q)) :
    Between a b (diffMiddle rec a b) := by
  unfold diffMiddle
  split_ifs
  · exact between_lcs a b
  · have hasc := anchors_ascending a b
    split
    · exact between_lcs a b
    · rename_i hne
      exact between_pieces hrec hasc (.inr hne)

theorem between_diffRange {fuel : ℕ} {a b : List Text} (h : a.length < fuel) :
    Between a b (diffRange fuel a b) := by
  induction fuel generalizing a b with
  | zero => exact absurd h (Nat.not_lt_zero _)
  | succ fuel ih =>
    obtain ⟨ha, hb, -, -⟩ := split_ends a b
    have hle : (middle (commonEnds a b) a).length ≤ a.length := by
      rw [middle, List.length_take, List.length_drop]
      omega
    have hmid : Between (middle (commonEnds a b) a) (middle (commonEnds a b) b)
        (diffMiddle (diffRange fuel) (middle (commonEnds a b) a) (middle (commonEnds a b) b)) :=
      between_diffMiddle fun p q hp => ih (by omega)
    unfold diffRange
    constructor
    · conv_rhs => rw [ha]
      simp only [before_append, before_map_same, hmid.1]
    · conv_rhs => rw [hb]
      simp only [after_append, after_map_same, hmid.2]

theorem between_diffLists (a b : List Text) : Between a b (diffLists a b) :=
  between_diffRange (Nat.lt_succ_self _)

/-- What is left after the common ends fits the table. -/
def Fits (a b : List Text) : Prop :=
  (middle (commonEnds a b) a).length * (middle (commonEnds a b) b).length ≤ maxCells

theorem sameCount_diffLists {a b : List Text} (h : Fits a b) :
    IsLongest (sameCount (diffLists a b)) a b := by
  obtain ⟨ha, hb, -, -⟩ := split_ends a b
  have hlongest := ((isLongest_cell (middle (commonEnds a b) a)
    (middle (commonEnds a b) b)).append_right (a.drop (a.length - (commonEnds a b).2))).append_left
    (a.take (commonEnds a b).1)
  rw [← ha, ← hb] at hlongest
  have hcount : sameCount (diffLists a b) = (a.take (commonEnds a b).1).length +
      (cell (middle (commonEnds a b) a) (middle (commonEnds a b) b) +
        (a.drop (a.length - (commonEnds a b).2)).length) := by
    unfold Fits at h
    unfold diffLists diffRange diffMiddle lcs
    simp only [if_pos h, if_neg (Nat.not_lt.mpr h), sameCount_append, sameCount_map_same,
      sameCount_walk]
  rw [hcount]
  exact hlongest

end Klick.Diff
