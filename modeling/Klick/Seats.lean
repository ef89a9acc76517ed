-- Persons take seats one after the other, each in the first of her rows that
-- still has one. When is no order able to leave a row short for good?
import Mathlib

/-- Rows in their order, each with the same number of seats, and who may sit where. -/
structure Hall (Person Row : Type) where
  rows : List Row
  seats : ℕ
  people : List Person
  people_nodup : people.Nodup
  meets : Person → Row → Bool
  meets_people : ∀ p r, meets p r = true → p ∈ people

namespace Hall

variable {Person Row : Type} [DecidableEq Row]

/-- How many seats of a row are taken. -/
def taken (f : List (Person × Row)) (r : Row) : ℕ := f.countP fun x => x.2 = r

/-- The rows that a person may sit in. -/
def choices (h : Hall Person Row) (p : Person) : List Row := h.rows.filter (h.meets p)

/-- The row that she takes. -/
def pick (h : Hall Person Row) (f : List (Person × Row)) (p : Person) : Option Row :=
  (h.choices p).find? fun r => taken f r < h.seats

/-- The rows before a row. -/
def before (h : Hall Person Row) (r : Row) : List Row := h.rows.takeWhile (· ≠ r)

/-- The seatings that arise when one person comes after the other. -/
inductive Reached (h : Hall Person Row) : List (Person × Row) → Prop
  | empty : Reached h []
  | sit {f : List (Person × Row)} {p : Person} {r : Row} (old : Reached h f)
      (fresh : p ∉ f.map Prod.fst) (pick : h.pick f p = some r) : Reached h (f ++ [(p, r)])

/-- A seating of exactly the rows before one row. -/
structure Filling (h : Hall Person Row) (r : Row) (f : List (Person × Row)) : Prop where
  once : (f.map Prod.fst).Nodup
  meets : ∀ x ∈ f, x.2 ∈ h.before r ∧ h.meets x.1 x.2 = true
  full : ∀ q ∈ h.before r, taken f q = h.seats

variable {h : Hall Person Row} {f g : List (Person × Row)} {p : Person} {r q : Row}

/-! ## Counting -/

@[simp] theorem taken_nil : taken ([] : List (Person × Row)) r = 0 := rfl

theorem taken_append : taken (f ++ g) r = taken f r + taken g r := List.countP_append

theorem taken_single : taken [(p, q)] r = if q = r then 1 else 0 := by
  simp [taken, List.countP_cons]

theorem taken_perm (hp : f.Perm g) : taken f r = taken g r := hp.countP_eq _

/-! ## The order of the rows -/

theorem before_eq {as bs : List Row} (hrows : h.rows = as ++ r :: bs) (hr : r ∉ as) :
    h.before r = as := by
  unfold before
  rw [hrows, List.takeWhile_append_of_pos, List.takeWhile_cons_of_neg, List.append_nil]
  · simp
  · intro x hx
    simpa using fun he : x = r => hr (he ▸ hx)

theorem mem_before_or (hr : r ∈ h.rows) (hq : q ∈ h.rows) :
    q ∈ h.before r ∨ q = r ∨ r ∈ h.before q := by
  obtain ⟨as, bs, hrows, hnot⟩ := List.eq_append_cons_of_mem hr
  by_cases hqa : q ∈ as
  · exact Or.inl (by rwa [before_eq hrows hnot])
  · by_cases hqr : q = r
    · exact Or.inr (Or.inl hqr)
    · have hqb : q ∈ bs := by
        rw [hrows] at hq
        simpa [hqa, hqr] using hq
      obtain ⟨cs, ds, rfl, hcs⟩ := List.eq_append_cons_of_mem hqb
      have hrows' : h.rows = (as ++ r :: cs) ++ q :: ds := by simp [hrows]
      refine Or.inr (Or.inr ?_)
      rw [before_eq hrows' (by simp [hqa, hqr, hcs])]
      simp

theorem before_rows (hq : q ∈ h.before r) : q ∈ h.rows := List.takeWhile_subset _ hq

/-- A person takes the first row with a seat among those she may sit in. -/
theorem pick_eq_some : h.pick f p = some r ↔ r ∈ h.rows ∧ h.meets p r = true ∧
    taken f r < h.seats ∧ ∀ q ∈ h.before r, h.meets p q = true → h.seats ≤ taken f q := by
  unfold pick choices
  rw [List.find?_filter, List.find?_eq_some_iff_append]
  simp only [decide_eq_true_eq, Bool.not_eq_true', decide_eq_false_iff_not, not_and, not_lt]
  constructor
  · rintro ⟨⟨hmeets, hfree⟩, as, bs, hrows, has⟩
    have hr : r ∉ as := fun hr => absurd hfree (by have := has r hr hmeets; omega)
    refine ⟨by simp [hrows], hmeets, hfree, ?_⟩
    rwa [before_eq hrows hr]
  · rintro ⟨hr, hmeets, hfree, hfull⟩
    obtain ⟨as, bs, hrows, hnot⟩ := List.eq_append_cons_of_mem hr
    rw [before_eq hrows hnot] at hfull
    exact ⟨⟨hmeets, hfree⟩, as, bs, hrows, hfull⟩

theorem pick_eq_none : h.pick f p = none ↔
    ∀ r ∈ h.rows, h.meets p r = true → h.seats ≤ taken f r := by
  unfold pick choices
  rw [List.find?_filter, List.find?_eq_none]
  simp

/-! ## What is reached -/

/-- What holds of every seating that is reached. -/
structure Seated (h : Hall Person Row) (f : List (Person × Row)) : Prop where
  once : (f.map Prod.fst).Nodup
  seats : ∀ r, taken f r ≤ h.seats
  order : ∀ x ∈ f, x.2 ∈ h.rows ∧ h.meets x.1 x.2 = true ∧
    ∀ q ∈ h.before x.2, h.meets x.1 q = true → h.seats ≤ taken f q

theorem Reached.seated (hf : h.Reached f) : h.Seated f := by
  induction hf with
  | empty => exact ⟨List.nodup_nil, fun r => Nat.zero_le _, fun x hx => absurd hx List.not_mem_nil⟩
  | @sit f p r old fresh hpick ih =>
    obtain ⟨hr, hmeets, hfree, hfull⟩ := pick_eq_some.1 hpick
    have hmono : ∀ q, taken f q ≤ taken (f ++ [(p, r)]) q := by
      intro q
      rw [taken_append]
      omega
    refine ⟨?_, ?_, ?_⟩
    · rw [List.map_append, List.nodup_append]
      refine ⟨ih.once, by simp, ?_⟩
      rintro a ha b hb rfl
      simp only [List.map_cons, List.map_nil, List.mem_singleton] at hb
      exact fresh (hb ▸ ha)
    · intro q
      have := ih.seats q
      rw [taken_append, taken_single]
      split
      · rename_i hq
        subst hq
        omega
      · omega
    · intro x hx
      rcases List.mem_append.mp hx with hx | hx
      · obtain ⟨h1, h2, h3⟩ := ih.order x hx
        exact ⟨h1, h2, fun q hq hm => (h3 q hq hm).trans (hmono q)⟩
      · rw [List.mem_singleton] at hx
        subst hx
        exact ⟨hr, hmeets, fun q hq hm => (hfull q hq hm).trans (hmono q)⟩

/-! ## A robust hall fills -/

variable [DecidableEq Person]

/-- The persons for a row whom a seating leaves over. -/
def left (h : Hall Person Row) (r : Row) (f : List (Person × Row)) : List Person :=
  h.people.filter fun p => h.meets p r && p ∉ f.map Prod.fst

/-- However the rows before a row are filled, enough persons for it are left. -/
def Robust (h : Hall Person Row) : Prop :=
  ∀ r ∈ h.rows, ∀ f, h.Filling r f → h.seats ≤ (h.left r f).length

/-- While a row of a robust hall has a seat, somebody comes who takes one. -/
theorem Seated.next (hf : h.Seated f) (hrobust : h.Robust) (hr : r ∈ h.rows)
    (hfree : taken f r < h.seats) :
    ∃ p ∈ h.people, p ∉ f.map Prod.fst ∧ ∃ q, h.pick f p = some q := by
  -- the first row that still has a seat
  obtain ⟨s, hs⟩ : ∃ s, h.rows.find? (fun s => taken f s < h.seats) = some s := by
    rw [← Option.isSome_iff_exists, List.find?_isSome]
    exact ⟨r, hr, by simpa using hfree⟩
  obtain ⟨hopen, as, bs, hrows, has⟩ := List.find?_eq_some_iff_append.mp hs
  have hopen : taken f s < h.seats := of_decide_eq_true hopen
  have hnot : s ∉ as := fun h => by simpa [hopen] using has s h
  have hbefore := before_eq hrows hnot
  have hfull : ∀ q ∈ h.before s, taken f q = h.seats := by
    intro q hq
    rw [hbefore] at hq
    have := has q hq
    have := hf.seats q
    simp only [Bool.not_eq_true', decide_eq_false_iff_not, not_lt] at *
    omega
  by_contra hnone
  -- everyone for this row sits there or before it
  have hsat : ∀ p, h.meets p s = true → p ∉ f.map Prod.fst → False := by
    intro p hp hfresh
    refine hnone ⟨p, h.meets_people p s hp, hfresh, ?_⟩
    rw [← Option.isSome_iff_exists, Option.isSome_iff_ne_none, Ne, pick_eq_none]
    intro hall
    have := hall s (by simp [hrows]) hp
    omega
  let g := f.filter fun x => x.2 ∈ h.before s
  have hcount : ∀ q ∈ h.before s, taken g q = taken f q := by
    intro q hq
    unfold taken g
    rw [List.countP_filter]
    refine List.countP_congr fun x hx => ?_
    simp only [Bool.and_eq_true, decide_eq_true_eq]
    exact ⟨fun h => h.1, fun h => ⟨h, by rw [h]; exact hq⟩⟩
  have hfill : h.Filling s g := by
    refine ⟨hf.once.sublist (List.filter_sublist.map _), ?_,
      fun q hq => (hcount q hq).trans (hfull q hq)⟩
    intro x hx
    obtain ⟨hx, hb⟩ := List.mem_filter.mp hx
    exact ⟨by simpa using hb, (hf.order x hx).2.1⟩
  -- those whom the rows before leave over sit in this row
  have hleft : ∀ p ∈ h.left s g, p ∈ (f.filter fun x => x.2 = s).map Prod.fst := by
    intro p hp
    obtain ⟨-, hp⟩ := List.mem_filter.mp hp
    simp only [Bool.and_eq_true, decide_eq_true_eq] at hp
    have hin : p ∈ f.map Prod.fst := by
      by_contra hfresh
      exact hsat p hp.1 hfresh
    obtain ⟨x, hx, rfl⟩ := List.mem_map.mp hin
    refine List.mem_map.mpr ⟨x, List.mem_filter.mpr ⟨hx, ?_⟩, rfl⟩
    obtain ⟨hrow, hmeets, hearlier⟩ := hf.order x hx
    rcases mem_before_or (r := s) (q := x.2) (by simp [hrows]) hrow with h1 | h1 | h1
    · exact absurd (List.mem_map.mpr ⟨x, List.mem_filter.mpr ⟨hx, by simpa using h1⟩, rfl⟩) hp.2
    · simpa using h1
    · have := hearlier s h1 hp.1
      omega
  have hlen : (h.left s g).length ≤ taken f s := by
    have := (List.subperm_of_subset (h.people_nodup.filter _) hleft).length_le
    unfold taken
    rwa [List.length_map, ← List.countP_eq_length_filter (l := f)] at this
  have := hrobust s (by simp [hrows]) g hfill
  omega

/-! ## Where a hall is not robust -/

theorem filter_or_perm {α : Type} {a b : α → Bool} {l : List α}
    (hdisjoint : ∀ x, a x = true → b x = true → False) :
    (l.filter a ++ l.filter b).Perm (l.filter fun x => a x || b x) := by
  induction l with
  | nil => simp
  | cons x l ih =>
    by_cases ha : a x = true
    · have hb : b x = false := Bool.eq_false_iff.mpr fun hb => hdisjoint x ha hb
      simpa [ha, hb] using ih
    · have ha : a x = false := by simpa using ha
      by_cases hb : b x = true
      · simp only [List.filter_cons, ha, hb, Bool.false_or, if_true, Bool.false_eq_true, if_false]
        exact List.perm_middle.trans (ih.cons x)
      · simpa [ha, hb] using ih

omit [DecidableEq Person] in
/-- One row after the other: persons who may sit in a row take its seats when the rows before
it are full. -/
theorem Reached.fill_row (hf : h.Reached f) (hr : r ∈ h.rows)
    (hfull : ∀ q ∈ h.before r, h.seats ≤ taken f q) {ps : List Person} (hnd : ps.Nodup)
    (hps : ∀ p ∈ ps, h.meets p r = true ∧ p ∉ f.map Prod.fst)
    (hseats : taken f r + ps.length ≤ h.seats) : h.Reached (f ++ ps.map fun p => (p, r)) := by
  induction ps generalizing f with
  | nil => simpa using hf
  | cons p ps ih =>
    obtain ⟨hfresh, hnd⟩ := List.nodup_cons.mp hnd
    obtain ⟨hmeets, hnot⟩ := hps p List.mem_cons_self
    rw [List.length_cons] at hseats
    have hpick : h.pick f p = some r :=
      pick_eq_some.2 ⟨hr, hmeets, by omega, fun q hq _ => hfull q hq⟩
    have hself : taken [(p, r)] r = 1 := by simp [taken_single]
    have := ih (f := f ++ [(p, r)]) (hf.sit hnot hpick) ?_ hnd ?_ ?_
    · simpa using this
    · intro q hq
      rw [taken_append]
      exact (hfull q hq).trans (Nat.le_add_right _ _)
    · intro x hx
      obtain ⟨h1, h2⟩ := hps x (List.mem_cons_of_mem _ hx)
      refine ⟨h1, ?_⟩
      simp only [List.map_append, List.map_cons, List.map_nil, List.mem_append, List.mem_singleton,
        not_or]
      exact ⟨h2, fun he => hfresh (he ▸ hx)⟩
    · rw [taken_append, hself]
      omega

omit [DecidableEq Person] in
/-- Each filling of the rows before a row is reached. -/
theorem Filling.reached (hg : h.Filling r g) : ∃ f, h.Reached f ∧ f.Perm g := by
  -- by the rows, first to last
  suffices hpre : ∀ as bs, h.before r = as ++ bs →
      ∃ f, h.Reached f ∧ f.Perm (g.filter fun x => x.2 ∈ as) by
    obtain ⟨f, hf, hperm⟩ := hpre (h.before r) [] (by simp)
    refine ⟨f, hf, ?_⟩
    rwa [List.filter_eq_self.mpr] at hperm
    intro x hx
    simpa using (hg.meets x hx).1
  intro as
  induction as using List.reverseRecOn with
  | nil => exact fun bs _ => ⟨[], .empty, by simp⟩
  | append_singleton as q ih =>
    intro bs hbs
    obtain ⟨f, hf, hperm⟩ := ih (q :: bs) (by simpa using hbs)
    by_cases hq : q ∈ as
    · refine ⟨f, hf, ?_⟩
      have : (g.filter fun x => x.2 ∈ as ++ [q]) = g.filter fun x => x.2 ∈ as := by
        refine List.filter_congr fun x _ => ?_
        simp only [List.mem_append, List.mem_singleton, decide_eq_decide]
        exact ⟨fun h => h.elim id (fun he => he ▸ hq), Or.inl⟩
      rwa [this]
    · have hqb : q ∈ h.before r := by simp [hbs]
      have hrows : ∃ cs, h.rows = as ++ q :: cs := by
        obtain ⟨cs, hcs⟩ := List.takeWhile_prefix (l := h.rows) (fun x => decide (x ≠ r))
        exact ⟨bs ++ cs, by rw [← hcs]; unfold before at hbs; rw [hbs]; simp⟩
      obtain ⟨cs, hcs⟩ := hrows
      have hbefore := before_eq hcs hq
      have hcount : ∀ t, t ∈ as → taken f t = h.seats := by
        intro t ht
        rw [taken_perm hperm, ← hg.full t (by simp [hbs, ht])]
        unfold taken
        rw [List.countP_filter]
        refine List.countP_congr fun x hx => ?_
        simp only [Bool.and_eq_true, decide_eq_true_eq]
        exact ⟨fun h => h.1, fun h => ⟨h, by rw [h]; exact ht⟩⟩
      have hzero : taken f q = 0 := by
        rw [taken_perm hperm]
        unfold taken
        rw [List.countP_eq_zero]
        intro x hx
        have := (List.mem_filter.mp hx).2
        simp only [decide_eq_true_eq] at *
        exact fun he => hq (he ▸ this)
      let ps := (g.filter fun x => x.2 = q).map Prod.fst
      have hlen : ps.length = h.seats := by
        rw [List.length_map, ← List.countP_eq_length_filter]
        exact hg.full q hqb
      refine ⟨f ++ ps.map fun p => (p, q), hf.fill_row (by simp [hcs]) ?_ ?_ ?_ (by omega), ?_⟩
      · intro t ht
        rw [hbefore] at ht
        exact (hcount t ht).ge
      · exact hg.once.sublist (List.filter_sublist.map _)
      · intro p hp
        obtain ⟨x, hx, rfl⟩ := List.mem_map.mp hp
        obtain ⟨hx, hxq⟩ := List.mem_filter.mp hx
        have hxq : x.2 = q := of_decide_eq_true hxq
        refine ⟨hxq ▸ (hg.meets x hx).2, fun hin => ?_⟩
        obtain ⟨y, hy, hyx⟩ := List.mem_map.mp hin
        obtain ⟨hy, hya⟩ := List.mem_filter.mp (hperm.mem_iff.mp hy)
        have := List.inj_on_of_nodup_map hg.once hy hx hyx
        simp only [decide_eq_true_eq] at hya
        exact hq (hxq ▸ this ▸ hya)
      · have hpairs : (ps.map fun p => (p, q)) = g.filter fun x => x.2 = q := by
          unfold ps
          rw [List.map_map]
          conv_rhs => rw [← List.map_id (g.filter fun x => x.2 = q)]
          refine List.map_congr_left fun x hx => ?_
          have : x.2 = q := of_decide_eq_true (List.mem_filter.mp hx).2
          simp [← this]
        rw [hpairs]
        refine (hperm.append_right _).trans ?_
        have hsplit : (g.filter fun x => x.2 ∈ as ++ [q]) =
            g.filter fun x => decide (x.2 ∈ as) || decide (x.2 = q) := by
          refine List.filter_congr fun x _ => ?_
          simp
        rw [hsplit]
        exact filter_or_perm fun x hx hxq => by
          simp only [decide_eq_true_eq] at hx hxq
          exact hq (hxq ▸ hx)

/-- Where the condition fails, some order leaves a row short with everyone for it seated. -/
theorem blocked_of_not_robust (hnot : ¬ h.Robust) : ∃ f, h.Reached f ∧ ∃ r ∈ h.rows,
    taken f r < h.seats ∧ ∀ p, h.meets p r = true → p ∈ f.map Prod.fst := by
  unfold Robust at hnot
  push Not at hnot
  obtain ⟨r, hr, g, hg, hshort⟩ := hnot
  obtain ⟨f, hf, hperm⟩ := hg.reached
  have hself : r ∉ h.before r := by
    intro hin
    simpa using List.mem_takeWhile_imp hin
  have hzero : taken f r = 0 := by
    rw [taken_perm hperm]
    unfold taken
    rw [List.countP_eq_zero]
    intro x hx
    simp only [decide_eq_true_eq]
    exact fun he => hself (he ▸ (hg.meets x hx).1)
  have hleft : ∀ p ∈ h.left r g, h.meets p r = true ∧ p ∉ f.map Prod.fst := by
    intro p hp
    have := (List.mem_filter.mp hp).2
    simp only [Bool.and_eq_true, decide_eq_true_eq] at this
    exact ⟨this.1, fun hin => this.2 ((hperm.map Prod.fst).mem_iff.mp hin)⟩
  refine ⟨f ++ (h.left r g).map fun p => (p, r), hf.fill_row hr ?_ (h.people_nodup.filter _) hleft
    (by omega), r, hr, ?_, ?_⟩
  · intro q hq
    rw [taken_perm hperm]
    exact (hg.full q hq).ge
  · rw [taken_append, hzero]
    have : taken ((h.left r g).map fun p => (p, r)) r ≤ (h.left r g).length := by
      unfold taken
      exact List.countP_le_length.trans (by simp)
    omega
  · intro p hp
    rw [List.map_append, List.mem_append]
    by_cases hin : p ∈ g.map Prod.fst
    · exact Or.inl ((hperm.map Prod.fst).mem_iff.mpr hin)
    · refine Or.inr (List.mem_map.mpr ⟨(p, r), List.mem_map.mpr ⟨p, ?_, rfl⟩, rfl⟩)
      exact List.mem_filter.mpr ⟨h.meets_people p r hp, by simpa [hp] using hin⟩

omit [DecidableEq Person] in
/-- A row that is short with everyone for it seated stays so. -/
theorem taken_of_blocked (hblocked : ∀ p, h.meets p r = true → p ∈ f.map Prod.fst)
    (hfresh : p ∉ f.map Prod.fst) (hpick : h.pick f p = some q) :
    taken (f ++ [(p, q)]) r = taken f r := by
  rw [taken_append, taken_single, if_neg, Nat.add_zero]
  rintro rfl
  exact hfresh (hblocked p (pick_eq_some.1 hpick).2.1)

end Hall
