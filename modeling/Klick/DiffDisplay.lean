-- The display of a difference (`compactDiff`, then `pairChanges`): each gap stands for as many
-- lines that stay as it counts, and both versions can be read off the lines that are shown.
import Klick.DiffLaws

open Js EditScript

namespace Klick.Diff

/-! ## Gaps -/

/-- A display fills up to lines: a gap by as many lines that stay as it counts. -/
inductive Fills : List CompactLine → List DiffLine → Prop
  | nil : Fills [] []
  | line (l : DiffLine) {out : List CompactLine} {lines : List DiffLine} (h : Fills out lines) :
    Fills (.line l :: out) (l :: lines)
  | gap (texts : List Text) {out : List CompactLine} {lines : List DiffLine}
    (h : Fills out lines) : Fills (.gap texts.length :: out) (texts.map .same ++ lines)

/-- The gap of the lines that were skipped, if there were any. -/
theorem Fills.skip {out : List CompactLine} {lines : List DiffLine} (h : Fills out lines)
    (texts : List Text) :
    Fills ((if 0 < texts.length then [.gap texts.length] else []) ++ out)
      (texts.map .same ++ lines) := by
  cases texts with
  | nil => exact h
  | cons t ts =>
    rw [if_pos (by simp)]
    exact .gap (t :: ts) h

theorem isSame_iff {l : DiffLine} : l.isSame = true ↔ ∃ t, l = .same t := by
  cases l <;> simp [Edit.isSame]

/-- The loop, with the lines that were skipped before it. -/
theorem compactFrom_fills {keep : ℕ → Bool} {lines : List DiffLine} {i : ℕ} {shown : Bool}
    (skipped : List Text)
    (hsame : ∀ j l, lines[j]? = some l → keep (i + j) = false → l.isSame = true)
    (hshown : shown = true ∨ ∃ j < lines.length, keep (i + j) = true) :
    Fills (compactFrom keep i skipped.length shown lines) (skipped.map .same ++ lines) := by
  induction lines generalizing i shown skipped with
  | nil =>
    have htrue : shown = true := by
      rcases hshown with h | ⟨j, hj, -⟩
      · exact h
      · exact absurd hj (Nat.not_lt_zero j)
    unfold compactFrom
    simp only [htrue, and_true]
    simpa using Fills.nil.skip skipped
  | cons l rest ih =>
    have hrest : ∀ j m, rest[j]? = some m → keep (i + 1 + j) = false → m.isSame = true := by
      intro j m hm hkeep
      apply hsame (j + 1) m (by simpa using hm)
      rwa [show i + (j + 1) = i + 1 + j by omega]
    unfold compactFrom
    by_cases hkeep : keep i = true
    · rw [if_pos hkeep]
      exact ((ih [] hrest (.inl rfl)).line l).skip skipped
    · rw [if_neg hkeep]
      have hl := hsame 0 l rfl (by simpa using hkeep)
      obtain ⟨t, rfl⟩ := isSame_iff.mp hl
      have hlater : shown = true ∨ ∃ j < rest.length, keep (i + 1 + j) = true := by
        refine hshown.imp_right fun ⟨j, hj, hk⟩ => ?_
        cases j with
        | zero => exact absurd hk hkeep
        | succ j =>
          refine ⟨j, by simpa using hj, ?_⟩
          rwa [show i + 1 + j = i + (j + 1) by omega]
      have hfills := ih (skipped ++ [t]) hrest hlater
      simpa using hfills

theorem keeps_of_changed {lines : List DiffLine} {context i : ℕ} {l : DiffLine}
    (hl : lines[i]? = some l) (hchanged : l.isSame = false) : keeps lines context i = true := by
  unfold keeps
  rw [List.any_eq_true]
  exact ⟨(l, i), List.mem_zipIdx_iff_getElem?.mpr hl, by simp [hchanged]⟩

/-- **With a line that came or went, the gaps count exactly the lines that are left out.** -/
theorem compactDiff_fills {lines : List DiffLine} (h : ∃ l ∈ lines, l.isSame = false)
    (context : ℕ) : Fills (compactDiff lines context) lines := by
  have hsame : ∀ j l, lines[j]? = some l → keeps lines context (0 + j) = false →
      l.isSame = true := by
    intro j l hl hkeep
    rw [Nat.zero_add] at hkeep
    by_contra hchanged
    rw [keeps_of_changed hl (by simpa using hchanged)] at hkeep
    cases hkeep
  obtain ⟨l, hl, hchanged⟩ := h
  obtain ⟨j, hj⟩ := List.mem_iff_getElem?.mp hl
  have hkept : ∃ j < lines.length, keeps lines context (0 + j) = true :=
    ⟨j, (List.getElem?_eq_some_iff.mp hj).1, by rw [Nat.zero_add]; exact keeps_of_changed hj hchanged⟩
  exact compactFrom_fills [] hsame (.inr hkept)

/-- Without one, nothing is shown. -/
theorem compactDiff_unchanged {lines : List DiffLine} (h : ∀ l ∈ lines, l.isSame = true)
    (context : ℕ) : compactDiff lines context = [] := by
  have hkeep : ∀ i, keeps lines context i = false := by
    intro i
    unfold keeps
    rw [List.any_eq_false]
    rintro ⟨l, j⟩ hin
    simp [h l (List.mem_of_getElem? (List.mem_zipIdx_iff_getElem?.mp hin))]
  have hloop : ∀ (ls : List DiffLine) (i skipped : ℕ),
      compactFrom (keeps lines context) i skipped false ls = [] := by
    intro ls
    induction ls with
    | nil => intro i skipped; simp [compactFrom]
    | cons l rest ih =>
      intro i skipped
      rw [compactFrom, if_neg (by simp [hkeep]), ih]
  exact hloop lines 0 0

/-! ## Words -/

theorem flatten_wordParts (t : Text) : (wordParts t).flatten = t := List.flatten_splitBy _ _

theorem pushPart_texts (out : List WordPart) (l : DiffLine) :
    (before (pushPart out l).reverse).flatten = (before (out.reverse ++ [l])).flatten ∧
      (after (pushPart out l).reverse).flatten = (after (out.reverse ++ [l])).flatten := by
  unfold pushPart
  split <;> simp [Edit.old?, Edit.new?]

theorem foldl_pushPart (lines out : List DiffLine) :
    (before (lines.foldl pushPart out).reverse).flatten =
        (before (out.reverse ++ lines)).flatten ∧
      (after (lines.foldl pushPart out).reverse).flatten =
        (after (out.reverse ++ lines)).flatten := by
  induction lines generalizing out with
  | nil => simp
  | cons l lines ih =>
    obtain ⟨hb, ha⟩ := ih (pushPart out l)
    obtain ⟨hpb, hpa⟩ := pushPart_texts out l
    rw [List.foldl_cons, hb, ha, List.append_cons, before_append, after_append, List.flatten_append,
      List.flatten_append, hpb, hpa, before_append, after_append, List.flatten_append,
      List.flatten_append]
    simp

/-- The parts of two lines join to them. -/
theorem diffWords_joins {d t : Text} {parts : List WordPart} (h : diffWords d t = some parts) :
    (before parts).flatten = d ∧ (after parts).flatten = t := by
  unfold diffWords at h
  dsimp only at h
  split_ifs at h
  cases h
  obtain ⟨hb, ha⟩ := between_diffLists (wordParts d) (wordParts t)
  obtain ⟨hfb, hfa⟩ := foldl_pushPart (diffLists (wordParts d) (wordParts t)) []
  rw [hfb, hfa, List.reverse_nil, List.nil_append, hb, ha]
  exact ⟨flatten_wordParts d, flatten_wordParts t⟩

/-! ## Both versions in the display -/

/-- What a display shows of the old version: nothing of an added line, and of a change what it
shows of the removed line that its parts join to. -/
structure OldReading {σ : Type} (f : DisplayLine → List σ) : Prop where
  add : ∀ t, f (.line (.add t)) = []
  change : ∀ parts, f (.change parts) = f (.line (.del (before parts).flatten))

/-- What it shows of the new version. -/
structure NewReading {σ : Type} (f : DisplayLine → List σ) : Prop where
  del : ∀ t, f (.line (.del t)) = []
  change : ∀ parts, f (.change parts) = f (.line (.add (after parts).flatten))

theorem findPair_spec {d : Text} {adds : List Text} {k : ℕ} {parts : List WordPart}
    (h : findPair d (adds.take pairWindow) = some (k, parts)) :
    (before parts).flatten = d ∧
      adds = adds.take k ++ (after parts).flatten :: adds.drop (k + 1) := by
  have hfound : ∀ (list : List Text) (k : ℕ), findPair d list = some (k, parts) →
      (before parts).flatten = d ∧ list[k]? = some (after parts).flatten := by
    intro list
    induction list with
    | nil => intro k h; cases h
    | cons t list ih =>
      intro k h
      unfold findPair at h
      split at h
      · rename_i found hfound
        cases h
        obtain ⟨hb, ha⟩ := diffWords_joins (Option.filter_eq_some_iff.mp hfound).1
        exact ⟨hb, by rw [ha]; rfl⟩
      · obtain ⟨⟨j, found⟩, hj, heq⟩ := Option.map_eq_some_iff.mp h
        cases heq
        exact ih j hj
  obtain ⟨hb, hk⟩ := hfound _ k h
  refine ⟨hb, ?_⟩
  rw [List.getElem?_take] at hk
  split_ifs at hk
  obtain ⟨hlt, hget⟩ := List.getElem?_eq_some_iff.mp hk
  rw [← hget, ← List.drop_eq_getElem_cons hlt, List.take_append_drop]

section Readings

variable {σ : Type} {f : DisplayLine → List σ}

theorem OldReading.adds (h : OldReading f) (adds : List Text) :
    (adds.map fun t => DisplayLine.line (.add t)).flatMap f = [] := by
  rw [List.flatMap_map]
  exact List.flatMap_eq_nil_iff.mpr fun t _ => h.add t

theorem NewReading.dels (h : NewReading f) (dels : List Text) :
    (dels.map fun t => DisplayLine.line (.del t)).flatMap f = [] := by
  rw [List.flatMap_map]
  exact List.flatMap_eq_nil_iff.mpr fun t _ => h.del t

/-- Removed lines with the added ones behind them: the removed ones are shown in their order. -/
theorem OldReading.pairBlock (h : OldReading f) (dels adds : List Text) :
    (pairBlock dels adds).flatMap f = (dels.map fun t => DisplayLine.line (.del t)).flatMap f := by
  induction dels generalizing adds with
  | nil => exact h.adds adds
  | cons d dels ih =>
    unfold Diff.pairBlock
    rw [List.map_cons, List.flatMap_cons]
    split
    · rw [List.flatMap_cons, ih]
    · rename_i k parts hfound
      obtain ⟨hb, -⟩ := findPair_spec hfound
      rw [List.flatMap_append, h.adds, List.nil_append, List.flatMap_cons, ih, h.change, hb]

/-- And so are the added ones. -/
theorem NewReading.pairBlock (h : NewReading f) (dels adds : List Text) :
    (pairBlock dels adds).flatMap f = (adds.map fun t => DisplayLine.line (.add t)).flatMap f := by
  induction dels generalizing adds with
  | nil => rfl
  | cons d dels ih =>
    unfold Diff.pairBlock
    split
    · rw [List.flatMap_cons, ih, h.del, List.nil_append]
    · rename_i k parts hfound
      obtain ⟨-, hadds⟩ := findPair_spec hfound
      rw [List.flatMap_append, List.flatMap_cons, ih, h.change]
      conv_rhs => rw [hadds, List.map_append, List.map_cons, List.flatMap_append, List.flatMap_cons]

theorem eq_spanDels (ls : List CompactLine) :
    ls = (spanDels ls).1.map (fun t => .line (.del t)) ++ (spanDels ls).2 := by
  fun_induction spanDels ls with
  | case1 t rest ih =>
    rw [List.map_cons, List.cons_append, ← ih]
  | case2 rest _ => rfl

theorem eq_spanAdds (ls : List CompactLine) :
    ls = (spanAdds ls).1.map (fun t => .line (.add t)) ++ (spanAdds ls).2 := by
  fun_induction spanAdds ls with
  | case1 t rest ih =>
    rw [List.map_cons, List.cons_append, ← ih]
  | case2 rest _ => rfl

/-- The lines of a block are its removed ones, its added ones, and the rest. -/
theorem display_block (t : Text) (rest : List CompactLine) :
    (.line (.del t) :: rest : List CompactLine).map CompactLine.display =
      ((t :: (spanDels rest).1).map fun t => DisplayLine.line (.del t)) ++
        ((spanAdds (spanDels rest).2).1.map (fun t => DisplayLine.line (.add t)) ++
          (spanAdds (spanDels rest).2).2.map CompactLine.display) := by
  conv_lhs => rw [eq_spanDels rest, eq_spanAdds (spanDels rest).2]
  simp only [List.map_cons, List.map_append, List.map_map, List.cons_append]
  rfl

theorem OldReading.pairChanges (h : OldReading f) (ls : List CompactLine) :
    (pairChanges ls).flatMap f = (ls.map CompactLine.display).flatMap f := by
  fun_induction Diff.pairChanges ls with
  | case1 => rfl
  | case2 t rest ih =>
    rw [display_block, List.flatMap_append, h.pairBlock, ih, List.flatMap_append,
      List.flatMap_append, h.adds, List.nil_append]
  | case3 l rest hne ih =>
    rw [List.flatMap_cons, List.map_cons, List.flatMap_cons, ih]

theorem NewReading.pairChanges (h : NewReading f) (ls : List CompactLine) :
    (pairChanges ls).flatMap f = (ls.map CompactLine.display).flatMap f := by
  fun_induction Diff.pairChanges ls with
  | case1 => rfl
  | case2 t rest ih =>
    rw [display_block, List.flatMap_append, h.pairBlock, ih, List.flatMap_append,
      List.flatMap_append, h.dels, List.nil_append]
  | case3 l rest hne ih =>
    rw [List.flatMap_cons, List.map_cons, List.flatMap_cons, ih]

end Readings

/-! ## What is shown -/

/-- A line of a version, or a gap with its count. -/
abbrev Shown := Text ⊕ ℕ

/-- The old version as it is shown. -/
def DisplayLine.old : DisplayLine → List Shown
  | .line l => l.old?.toList.map .inl
  | .gap skipped => [.inr skipped]
  | .change parts => [.inl (before parts).flatten]

/-- The new version as it is shown. -/
def DisplayLine.new : DisplayLine → List Shown
  | .line l => l.new?.toList.map .inl
  | .gap skipped => [.inr skipped]
  | .change parts => [.inl (after parts).flatten]

/-- The removed line that a line of the display stands for. -/
def DisplayLine.removed : DisplayLine → List Text
  | .line (.del t) => [t]
  | .change parts => [(before parts).flatten]
  | _ => []

/-- The added line that a line of the display stands for. -/
def DisplayLine.added : DisplayLine → List Text
  | .line (.add t) => [t]
  | .change parts => [(after parts).flatten]
  | _ => []

theorem old_reading : OldReading DisplayLine.old := ⟨fun _ => rfl, fun _ => rfl⟩

theorem new_reading : NewReading DisplayLine.new := ⟨fun _ => rfl, fun _ => rfl⟩

theorem removed_reading : OldReading DisplayLine.removed := ⟨fun _ => rfl, fun _ => rfl⟩

theorem added_reading : NewReading DisplayLine.added := ⟨fun _ => rfl, fun _ => rfl⟩

/-- What a reading makes of the lines that came and went is not changed by the gaps. -/
theorem Fills.flatMap {σ : Type} {f : DisplayLine → List σ} (hsame : ∀ t, f (.line (.same t)) = [])
    (hgap : ∀ n, f (.gap n) = []) {out : List CompactLine} {lines : List DiffLine}
    (h : Fills out lines) :
    (out.map CompactLine.display).flatMap f = lines.flatMap fun l => f (.line l) := by
  induction h with
  | nil => rfl
  | line l _ ih =>
    rw [List.map_cons, List.flatMap_cons, List.flatMap_cons, ih]
    rfl
  | gap texts _ ih =>
    have hnone : (texts.map Edit.same).flatMap (fun l => f (.line l)) = [] := by
      rw [List.flatMap_map]
      exact List.flatMap_eq_nil_iff.mpr fun t _ => hsame t
    rw [List.map_cons, List.flatMap_cons, ih, List.flatMap_append, hnone, List.nil_append]
    change f (.gap texts.length) ++ _ = _
    rw [hgap, List.nil_append]

/-- The lines that came and went are all shown, with their gaps and without any change alike. -/
theorem compactDiff_flatMap {σ : Type} {f : DisplayLine → List σ}
    (hsame : ∀ t, f (.line (.same t)) = []) (hgap : ∀ n, f (.gap n) = []) (lines : List DiffLine)
    (context : ℕ) : ((compactDiff lines context).map CompactLine.display).flatMap f =
      lines.flatMap fun l => f (.line l) := by
  by_cases h : ∃ l ∈ lines, l.isSame = false
  · exact (compactDiff_fills h context).flatMap hsame hgap
  · push Not at h
    have hall : ∀ l ∈ lines, l.isSame = true := fun l hl => by simpa using h l hl
    rw [compactDiff_unchanged hall]
    symm
    apply List.flatMap_eq_nil_iff.mpr
    intro l hl
    obtain ⟨t, rfl⟩ := isSame_iff.mp (hall l hl)
    exact hsame t

end Klick.Diff
