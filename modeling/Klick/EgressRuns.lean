-- The sliding windows over runs: whatever other keys do, and whether or not a sweep has run,
-- a key fares as it would alone, as long as a sweep forgets nothing that the window of its
-- key still asks for. A sweep of the watch over downloads goes by the window of the call that
-- brought it about, so that another organisation's longer window may lose its downloads.
import Klick.Egress

open Js KeyedCalls Interleaving

namespace Klick.Egress

variable {κ : Type} [DecidableEq κ]

/-! ## What must hold -/

/-- At most `limit` admitted calls of a key in an interval as long as its window, refusals
only at the limit, and the decisions on each key those on its calls alone. -/
structure WindowsHold {δ : Type} (allowed : δ → Bool) (limit windowMs : κ → ℤ)
    (alone : κ → List ℤ → List δ) (log : List (Entry κ δ)) : Prop where
  admitted_after : ∀ k a, 0 < limit k → ((admittedAt allowed log k).countP fun t =>
    a < t && t ≤ a + windowMs k : ℤ) ≤ limit k
  admitted_from : ∀ k a, 0 < limit k → ((admittedAt allowed log k).countP fun t =>
    a ≤ t && t < a + windowMs k : ℤ) ≤ limit k
  refused : ∀ first e rest, log = first ++ e :: rest → allowed e.decision = false →
    ((admittedAt allowed first e.key).countP fun t =>
      e.now - windowMs e.key < t && t ≤ e.now : ℤ) = limit e.key
  alone : ∀ k, decisionsAt log k = alone k (timesAt log k)

theorem windowsHold_of_counted {M S δ : Type} {allowed : δ → Bool} {limit windowMs : κ → ℤ}
    {slot : M → κ → S} {one : κ → S → ℤ → δ × S} {same : κ → ℤ → S → S → Prop}
    {hits : S → List ℤ} {m₀ : M} {w : World M κ δ}
    (h : Counted allowed limit windowMs slot one same hits m₀ w) :
    WindowsHold allowed limit windowMs (fun k => decisions (one k) (slot m₀ k)) w.log where
  admitted_after k a hlimit := h.decides.within hlimit _ (SlidingWindow.short_after _ a)
  admitted_from k a hlimit := h.decides.within hlimit _ (SlidingWindow.short_from _ a)
  refused first e rest hlog hrefused := by
    apply h.decides.refused h.timely _ hrefused
    exact ⟨rest, by simp [hlog]⟩
  alone := h.decided

/-! ## Downloads at one key -/

structure Slot where
  hits : List ℤ
  alerted : Option ℤ

def EgressMonitor.slot (m : EgressMonitor κ) (k : κ) : Slot :=
  ⟨(m.hits.get k).getD [], m.alerted.get k⟩

/-- What `record` does at its key, if it does not sweep. -/
def Slot.record (limit windowMs : ℤ) (s : Slot) (now : ℤ) : EgressDecision × Slot :=
  if limit ≤ 0 then (⟨true, false, 0⟩, s)
  else
    let list := live (now - windowMs) s.hits
    if limit ≤ list.length then
      let alert := s.alerted.all (· ≤ now - windowMs)
      (⟨false, alert, list.length⟩, ⟨list, if alert then some now else s.alerted⟩)
    else (⟨true, false, list.length + 1⟩, { s with hits := list ++ [now] })

/-- The same for every call from a time on. -/
structure Slot.Same (windowMs now : ℤ) (s t : Slot) : Prop where
  hits : live (now - windowMs) s.hits = live (now - windowMs) t.hits
  alerted : s.alerted.filter (now - windowMs < ·) = t.alerted.filter (now - windowMs < ·)

theorem filter_later {a b : ℤ} (h : a ≤ b) (o : Option ℤ) :
    (o.filter (a < ·)).filter (b < ·) = o.filter (b < ·) := by
  cases o with
  | none => rfl
  | some t =>
    by_cases ha : a < t
    · simp [Option.filter, ha]
    · have hb : ¬ b < t := by omega
      simp [Option.filter, ha, hb]

theorem all_le_eq (a : ℤ) (o : Option ℤ) : o.all (· ≤ a) = (o.filter (a < ·)).isNone := by
  cases o with
  | none => rfl
  | some t =>
    by_cases h : t ≤ a
    · simp [Option.filter, h, Int.not_lt.mpr h]
    · simp [Option.filter, h, Int.not_le.mp h]

namespace Slot.Same

variable {windowMs now now' limit : ℤ} {s t u : Slot}

theorem refl (windowMs now : ℤ) (s : Slot) : Same windowMs now s s := ⟨rfl, rfl⟩

theorem trans (h : Same windowMs now s t) (h' : Same windowMs now t u) : Same windowMs now s u :=
  ⟨h.hits.trans h'.hits, h.alerted.trans h'.alerted⟩

theorem later (hle : now ≤ now') (h : Same windowMs now s t) : Same windowMs now' s t where
  hits := live_congr (by omega) h.hits
  alerted := by
    have hfrom : now - windowMs ≤ now' - windowMs := by omega
    rw [← filter_later hfrom s.alerted, h.alerted, filter_later hfrom]

theorem decides (h : Same windowMs now s t) :
    (s.record limit windowMs now).1 = (t.record limit windowMs now).1 := by
  unfold Slot.record
  simp only [h.hits, all_le_eq, h.alerted]
  split_ifs <;> rfl

theorem keeps (h : Same windowMs now s t) :
    Same windowMs now (s.record limit windowMs now).2 (t.record limit windowMs now).2 := by
  unfold Slot.record
  simp only [h.hits, all_le_eq, h.alerted]
  split_ifs
  · exact h
  · exact ⟨rfl, rfl⟩
  · exact ⟨rfl, h.alerted⟩
  · exact ⟨rfl, h.alerted⟩

end Slot.Same

/-! ## The watch over downloads -/

/-- Calls of which each key has its own limit and window. -/
def recordAt (limit windowMs : κ → ℤ) (m : EgressMonitor κ) (k : κ) (now : ℤ) :
    EgressDecision × EgressMonitor κ := m.record k (limit k) (windowMs k) now

def slotRecord (limit windowMs : κ → ℤ) (k : κ) (s : Slot) (now : ℤ) : EgressDecision × Slot :=
  s.record (limit k) (windowMs k) now

/-- The call is admitted and leaves more than `maxKeys` keys. -/
def Sweeps (limit windowMs : κ → ℤ) (m : EgressMonitor κ) (call : κ × ℤ) : Prop :=
  0 < limit call.1 ∧
    (live (call.2 - windowMs call.1) (m.slot call.1).hits).length < limit call.1 ∧
    maxKeys < (m.hits.set call.1 (live (call.2 - windowMs call.1) (m.slot call.1).hits ++
      [call.2])).size

/-- If the call sweeps, its window holds all that the windows of the other keys hold. -/
def SweepKeeps (limit windowMs : κ → ℤ) (m : EgressMonitor κ) (call : κ × ℤ) : Prop :=
  Sweeps limit windowMs m call →
    (∀ e ∈ m.hits.entries, ∀ t ∈ e.2, call.2 - windowMs e.1 < t → call.2 - windowMs call.1 < t) ∧
    ∀ e ∈ m.alerted.entries, call.2 - windowMs e.1 < e.2 → call.2 - windowMs call.1 < e.2

instance (limit windowMs : κ → ℤ) (m : EgressMonitor κ) (call : κ × ℤ) :
    Decidable (Sweeps limit windowMs m call) := inferInstanceAs (Decidable (_ ∧ _))

instance (limit windowMs : κ → ℤ) (m : EgressMonitor κ) (call : κ × ℤ) :
    Decidable (SweepKeeps limit windowMs m call) := inferInstanceAs (Decidable (_ → _))

theorem slot_sweep (m : EgressMonitor κ) (now windowMs : ℤ) (k : κ) :
    (m.sweep now windowMs).slot k = ⟨live (now - windowMs) (m.slot k).hits,
      (m.slot k).alerted.filter (now - windowMs < ·)⟩ := by
  unfold EgressMonitor.slot EgressMonitor.sweep
  simp only [OrderedMap.get_filterMap, sweepTimes_getD, Slot.mk.injEq, true_and]
  cases m.alerted.get k with
  | none => rfl
  | some t =>
    by_cases h : t ≤ now - windowMs
    · simp [Option.filter, h, Int.not_lt.mpr h]
    · simp [Option.filter, h, Int.not_le.mp h]

/-- A sweep by a window that holds all that the window of a key holds. -/
theorem same_sweep {m : EgressMonitor κ} {now windowMs own : ℤ} {k : κ}
    (hhits : ∀ t ∈ (m.slot k).hits, now - own < t → now - windowMs < t)
    (halerted : ∀ t ∈ (m.slot k).alerted, now - own < t → now - windowMs < t) :
    Slot.Same own now ((m.sweep now windowMs).slot k) (m.slot k) := by
  rw [slot_sweep]
  constructor
  · simp only [live]
    rw [List.filter_filter]
    apply List.filter_congr
    intro t ht
    have := hhits t ht
    by_cases h : now - own < t <;> simp [h, this]
  · cases halert : (m.slot k).alerted with
    | none => rfl
    | some t =>
      have := halerted t halert
      by_cases h : now - own < t
      · simp [Option.filter, h, this h]
      · by_cases h' : now - windowMs < t <;> simp [Option.filter, h, h']

theorem record_fst (limit windowMs : κ → ℤ) (m : EgressMonitor κ) (k : κ) (now : ℤ) :
    (recordAt limit windowMs m k now).1 = (slotRecord limit windowMs k (m.slot k) now).1 := by
  unfold recordAt slotRecord EgressMonitor.record Slot.record EgressMonitor.slot
  dsimp only
  split_ifs <;> rfl

theorem record_self {limit windowMs : κ → ℤ} {m : EgressMonitor κ} {k : κ} {now : ℤ} :
    Slot.Same (windowMs k) now ((recordAt limit windowMs m k now).2.slot k)
      (slotRecord limit windowMs k (m.slot k) now).2 := by
  unfold recordAt slotRecord EgressMonitor.record Slot.record
  by_cases hlimit : limit k ≤ 0
  · simp only [if_pos hlimit]
    exact .refl _ _ _
  simp only [if_neg hlimit]
  by_cases hfull : limit k ≤ (live (now - windowMs k) ((m.hits.get k).getD [])).length
  · simp only [EgressMonitor.slot, hfull, ↓reduceIte, OrderedMap.get_set_self, Option.getD_some]
    split_ifs with halert
    · rw [OrderedMap.get_set_self]
      simp only [halert, ↓reduceIte]
      exact .refl _ _ _
    · simp only [halert, Bool.false_eq_true, ↓reduceIte]
      exact .refl _ _ _
  · have hput : ∀ list, (⟨m.hits.set k list, m.alerted⟩ : EgressMonitor κ).slot k =
        ⟨list, (m.slot k).alerted⟩ := by
      intro list
      simp only [EgressMonitor.slot, OrderedMap.get_set_self, Option.getD_some]
    have hslot : ¬ limit k ≤ (live (now - windowMs k) (m.slot k).hits).length := hfull
    simp only [if_neg hfull, if_neg hslot]
    split_ifs
    · refine (same_sweep (fun _ _ h => h) (fun _ _ h => h)).trans ?_
      rw [hput]
      exact .refl _ _ _
    · rw [hput]
      exact .refl _ _ _

theorem record_ne {limit windowMs : κ → ℤ} {m : EgressMonitor κ} {k j : κ} {now : ℤ}
    (hkeeps : SweepKeeps limit windowMs m (k, now)) (hj : j ≠ k) :
    Slot.Same (windowMs j) now ((recordAt limit windowMs m k now).2.slot j) (m.slot j) := by
  have hset : ∀ list, (m.hits.set k list).get j = m.hits.get j := fun list =>
    OrderedMap.get_set_of_ne _ hj _
  have hput : ∀ list, (⟨m.hits.set k list, m.alerted⟩ : EgressMonitor κ).slot j = m.slot j :=
    fun list => by simp only [EgressMonitor.slot, hset]
  unfold recordAt EgressMonitor.record
  by_cases hlimit : limit k ≤ 0
  · simp only [if_pos hlimit]
    exact .refl _ _ _
  simp only [if_neg hlimit]
  by_cases hfull : limit k ≤ (live (now - windowMs k) ((m.hits.get k).getD [])).length
  · simp only [EgressMonitor.slot, if_pos hfull, hset]
    split_ifs
    · rw [OrderedMap.get_set_of_ne _ hj]
      exact .refl _ _ _
    · exact .refl _ _ _
  · simp only [if_neg hfull]
    split_ifs with hmany
    · obtain ⟨hhits, halerted⟩ := hkeeps ⟨Int.not_le.mp hlimit, Int.not_le.mp hfull, hmany⟩
      rw [← hput (live (now - windowMs k) ((m.hits.get k).getD []) ++ [now])]
      refine same_sweep ?_ ?_ <;> rw [hput]
      · intro t ht
        cases hget : m.hits.get j with
        | none => simp [EgressMonitor.slot, hget] at ht
        | some list =>
          simp only [EgressMonitor.slot, hget, Option.getD_some] at ht
          exact hhits (j, list) ((OrderedMap.get_eq_some_iff _).mp hget) t ht
      · intro t ht
        exact halerted (j, t) ((OrderedMap.get_eq_some_iff _).mp ht)
    · rw [hput]
      exact .refl _ _ _

theorem independent (limit windowMs : κ → ℤ) :
    Independent (recordAt limit windowMs) EgressMonitor.slot (slotRecord limit windowMs)
      (fun k now => Slot.Same (windowMs k) now) (SweepKeeps limit windowMs) where
  refl k now := Slot.Same.refl (windowMs k) now
  trans := Slot.Same.trans
  later := Slot.Same.later
  decides := Slot.Same.decides
  keeps := Slot.Same.keeps
  record_fst := record_fst limit windowMs
  record_self _ := record_self
  record_ne := record_ne

omit [DecidableEq κ] in
theorem counts (limit windowMs : κ → ℤ) :
    Counts EgressDecision.allowed limit windowMs (slotRecord limit windowMs) Slot.hits where
  allowed_iff k s now := by
    unfold slotRecord Slot.record
    rw [← length_live]
    by_cases hlimit : limit k ≤ 0
    · simp [hlimit]
    · by_cases hfull : limit k ≤ (live (now - windowMs k) s.hits).length
      · simp [hlimit, hfull]
      · simp [hlimit, hfull, Int.not_le.mp hfull]
  hits_eq k s now hlimit := by
    unfold slotRecord Slot.record
    have hnot : ¬ limit k ≤ 0 := by omega
    by_cases hfull : limit k ≤ (live (now - windowMs k) s.hits).length
    · simp only [if_neg hnot, if_pos hfull, Bool.false_eq_true, ↓reduceIte]
      exact live_live le_rfl _
    · simp only [if_neg hnot, if_neg hfull, ↓reduceIte]
      simp [live, List.filter_append, List.filter_filter]

/-! ## The limit on requests -/

def SlidingWindowLimiter.slot (l : SlidingWindowLimiter κ) (k : κ) : List ℤ :=
  (l.hits.get k).getD []

/-- What `check` does at its key, if it does not sweep. -/
def checkSlot (limit windowMs : ℤ) (hits : List ℤ) (now : ℤ) : RateDecision × List ℤ :=
  if limit ≤ 0 then (⟨true, ⊤, 0⟩, hits)
  else
    let list := live (now - windowMs) hits
    if limit ≤ list.length then
      (⟨false, (0 : ℤ), list.head?.getD now + windowMs - now⟩, list)
    else (⟨true, (limit - (list.length + 1) : ℤ), 0⟩, list ++ [now])

/-- `check` of a limiter with its limit and window, on its memory. -/
def checkAt (limit windowMs : ℤ) (hits : OrderedMap κ (List ℤ)) (k : κ) (now : ℤ) :
    RateDecision × OrderedMap κ (List ℤ) :=
  let r := (⟨limit, windowMs, hits⟩ : SlidingWindowLimiter κ).check k now
  (r.1, r.2.hits)

theorem check_fst (limit windowMs : ℤ) (hits : OrderedMap κ (List ℤ)) (k : κ) (now : ℤ) :
    (checkAt limit windowMs hits k now).1 =
      (checkSlot limit windowMs ((hits.get k).getD []) now).1 := by
  unfold checkAt SlidingWindowLimiter.check checkSlot
  dsimp only
  split_ifs <;> rfl

/-- The times at a key after a sweep, as far as the window asks for them. -/
theorem live_filterMap (hits : OrderedMap κ (List ℤ)) (from_ : ℤ) (k : κ) :
    live from_ (((hits.filterMap (sweepTimes from_)).get k).getD []) =
      live from_ ((hits.get k).getD []) := by
  rw [OrderedMap.get_filterMap, sweepTimes_getD, live_live le_rfl]

theorem check_self {limit windowMs : ℤ} {hits : OrderedMap κ (List ℤ)} {k : κ} {now : ℤ} :
    live (now - windowMs) (((checkAt limit windowMs hits k now).2.get k).getD []) =
      live (now - windowMs) (checkSlot limit windowMs ((hits.get k).getD []) now).2 := by
  unfold checkAt SlidingWindowLimiter.check checkSlot
  dsimp only
  split_ifs
  · rfl
  · rw [OrderedMap.get_set_self]
    rfl
  · unfold SlidingWindowLimiter.sweep
    rw [live_filterMap, OrderedMap.get_set_self]
    rfl
  · rw [OrderedMap.get_set_self]
    rfl

theorem check_ne {limit windowMs : ℤ} {hits : OrderedMap κ (List ℤ)} {k j : κ} {now : ℤ}
    (hj : j ≠ k) :
    live (now - windowMs) (((checkAt limit windowMs hits k now).2.get j).getD []) =
      live (now - windowMs) ((hits.get j).getD []) := by
  unfold checkAt SlidingWindowLimiter.check
  dsimp only
  split_ifs
  · rfl
  · rw [OrderedMap.get_set_of_ne _ hj]
  · unfold SlidingWindowLimiter.sweep
    rw [live_filterMap, OrderedMap.get_set_of_ne _ hj]
  · rw [OrderedMap.get_set_of_ne _ hj]

theorem check_independent (limit windowMs : ℤ) :
    Independent (checkAt (κ := κ) limit windowMs) (fun hits k => (hits.get k).getD [])
      (fun _ => checkSlot limit windowMs)
      (fun _ now s t => live (now - windowMs) s = live (now - windowMs) t) (fun _ _ => True) where
  refl _ _ _ := rfl
  trans := Eq.trans
  later hle h := live_congr (by omega) h
  decides h := by
    unfold checkSlot
    simp only [h]
    split_ifs <;> rfl
  keeps h := by
    unfold checkSlot
    simp only [h]
    split_ifs
    · exact h
    · rfl
    · rfl
  record_fst := check_fst limit windowMs
  record_self _ := check_self
  record_ne _ := check_ne

omit [DecidableEq κ] in
theorem check_counts (limit windowMs : ℤ) :
    Counts RateDecision.allowed (fun _ : κ => limit) (fun _ => windowMs)
      (fun _ => checkSlot limit windowMs) id where
  allowed_iff _ s now := by
    unfold checkSlot
    rw [← length_live]
    by_cases hlimit : limit ≤ 0
    · simp [hlimit]
    · by_cases hfull : limit ≤ (live (now - windowMs) s).length
      · simp [hlimit, hfull]
      · simp [hlimit, hfull, Int.not_le.mp hfull]
  hits_eq _ s now hlimit := by
    unfold checkSlot
    have hnot : ¬ limit ≤ 0 := by omega
    by_cases hfull : limit ≤ (live (now - windowMs) s).length
    · simp only [if_neg hnot, if_pos hfull, Bool.false_eq_true, ↓reduceIte]
      exact live_live le_rfl _
    · simp only [if_neg hnot, if_neg hfull, ↓reduceIte]
      simp [live, List.filter_append, List.filter_filter]

/-! ## All runs -/

/-- **The limits of the sliding windows.** -/
theorem sliding_windows_hold (limit windowMs : κ → ℤ) (perMin perMs : ℤ)
    (calls : List (κ × ℤ)) :
    (∀ w, Along (step (recordAt limit windowMs))
        (fun w call => SweepKeeps limit windowMs w.memory call) ⟨.new, []⟩ calls →
      run (step (recordAt limit windowMs)) ⟨.new, []⟩ calls = some w →
      WindowsHold EgressDecision.allowed limit windowMs
        (fun k => decisions (slotRecord limit windowMs k) ⟨[], none⟩) w.log) ∧
    (∀ w, run (step (checkAt perMin perMs)) ⟨.empty, []⟩ calls = some w →
      WindowsHold RateDecision.allowed (fun _ => perMin) (fun _ => perMs)
        (fun _ => decisions (checkSlot perMin perMs) []) w.log) := by
  constructor
  · intro w halong hrun
    exact windowsHold_of_counted
      ((counts limit windowMs).run_counted (independent limit windowMs) (fun _ => rfl) halong hrun)
  · intro w hrun
    exact windowsHold_of_counted ((check_counts perMin perMs).run_counted
      (check_independent perMin perMs) (fun _ => rfl) (along_true _ _ _) hrun)

theorem sliding_windows_hold_sample :
    ∃ w, run (step (recordAt (fun _ : ℕ => 1) fun k => 60000 * k)) ⟨.new, []⟩
        [(1, 0), (2, 5), (1, 7)] = some w ∧
      WindowsHold EgressDecision.allowed (fun _ : ℕ => 1) (fun k => 60000 * k)
        (fun k => decisions (slotRecord (fun _ => 1) (fun k => 60000 * k) k) ⟨[], none⟩) w.log :=
  ⟨_, rfl, (sliding_windows_hold _ _ 600 60000 [(1, 0), (2, 5), (1, 7)]).1 _ (by decide) rfl⟩

/-! ## A sweep that forgets -/

def watched : Text := js "o1:u"

def other (n : ℕ) : Text := js "o2:" ++ List.replicate n (ch 'u')

/-- One organisation watches four hours, the other one minute. -/
def windowOf (k : Text) : ℤ := if k = watched then 14400000 else 60000

/-- Five downloads in the one organisation, and then of many people in the other. -/
def crowd (n : ℕ) : List (Text × ℤ) :=
  List.replicate 5 (watched, 0) ++ (List.range n).map fun i => (other i, 60001)

theorem other_ne_watched (n : ℕ) : other n ≠ watched := by
  intro h
  have hthird := congrArg (·[1]?) h
  revert hthird
  simp only [other, List.getElem?_append_left (show 1 < (js "o2:").length by decide)]
  decide

theorem other_injective {m n : ℕ} (h : other m = other n) : m = n := by
  have hlen := congrArg List.length h
  simpa [other] using hlen

structure Crowded (n : ℕ) (w : World (EgressMonitor Text) Text EgressDecision) : Prop where
  size : w.memory.hits.size = n + 1
  free : ∀ i, n ≤ i → w.memory.hits.get (other i) = none
  held : w.memory.hits.get watched = some [0, 0, 0, 0, 0]
  admitted : admittedAt EgressDecision.allowed w.log watched = [0, 0, 0, 0, 0]
  times : ∀ e ∈ w.log, e.now ≤ 60001

/-- The call of one more person, before a sweep. -/
theorem crowded_step {n : ℕ} {w : World (EgressMonitor Text) Text EgressDecision}
    (h : Crowded n w) :
    ∃ m' : EgressMonitor Text, m'.hits = w.memory.hits.set (other n) [60001] ∧
      step (recordAt (fun _ => 5) windowOf) w (other n, 60001) =
        some ⟨if maxKeys < n + 2 then m'.sweep 60001 60000 else m',
          w.log ++ [⟨other n, 60001, ⟨true, false, 1⟩⟩]⟩ := by
  have hfree := h.free n le_rfl
  have hwindow : windowOf (other n) = 60000 := if_neg (other_ne_watched n)
  have hall : w.log.all (·.now ≤ 60001) = true := by simpa using h.times
  have hsize : (w.memory.hits.set (other n) [60001]).size = n + 2 := by
    rw [OrderedMap.size_set_of_none hfree, h.size]
  refine ⟨{ w.memory with hits := w.memory.hits.set (other n) [60001] }, rfl, ?_⟩
  unfold step recordAt EgressMonitor.record
  simp only [hall, if_true, hwindow, hfree, Option.getD_none, live, List.filter_nil,
    List.nil_append, List.length_nil, hsize]
  norm_num

theorem crowded {n : ℕ} (h : n + 1 ≤ maxKeys) :
    ∃ w, run (step (recordAt (fun _ => 5) windowOf)) ⟨.new, []⟩ (crowd n) = some w ∧
      Crowded n w := by
  induction n with
  | zero =>
    refine ⟨_, rfl, rfl, ?_, rfl, rfl, by decide⟩
    intro i _
    have hne := Ne.symm (other_ne_watched i)
    simp only [OrderedMap.get, OrderedMap.set]
    exact if_neg hne
  | succ n ih =>
    obtain ⟨w, hrun, hw⟩ := ih (by omega)
    obtain ⟨m', hhits, hstep⟩ := crowded_step hw
    rw [if_neg (by omega)] at hstep
    refine ⟨⟨m', w.log ++ [⟨other n, 60001, ⟨true, false, 1⟩⟩]⟩, ?_, ?_⟩
    · unfold crowd at hrun ⊢
      rw [List.range_succ, List.map_append, ← List.append_assoc, run_append, hrun,
        Option.bind_some, List.map_singleton, run, hstep]
      rfl
    · have hne := other_ne_watched n
      constructor
      · rw [hhits, OrderedMap.size_set_of_none (hw.free n le_rfl), hw.size]
      · intro i hi
        have hi' : other i ≠ other n := fun heq => by
          have := other_injective heq
          omega
        rw [hhits, OrderedMap.get_set_of_ne _ hi', hw.free i (by omega)]
      · rw [hhits, OrderedMap.get_set_of_ne _ hne.symm, hw.held]
      · rw [admittedAt_snoc, if_neg (by simp [hne]), hw.admitted]
      · intro e he
        rcases List.mem_append.mp he with he | he
        · exact hw.times e he
        · rw [List.mem_singleton.mp he]

/-- The person of the other organisation that is one too many brings about a sweep, and a sixth
download within the four hours is let through. -/
theorem sweep_forgets :
    ∃ w, run (step (recordAt (fun _ => 5) windowOf)) ⟨.new, []⟩
        (crowd 9999 ++ [(other 9999, 60001), (watched, 60001)]) = some w ∧
      5 < (admittedAt EgressDecision.allowed w.log watched).countP fun t =>
        60001 - windowOf watched < t && t ≤ 60001 := by
  obtain ⟨w, hrun, hw⟩ := crowded (n := 9999) (by decide)
  obtain ⟨m', hhits, hstep⟩ := crowded_step hw
  rw [if_pos (by decide)] at hstep
  have hne := other_ne_watched 9999
  have hgone : (m'.sweep 60001 60000).hits.get watched = none := by
    unfold EgressMonitor.sweep
    rw [OrderedMap.get_filterMap, hhits, OrderedMap.get_set_of_ne _ hne.symm, hw.held]
    decide
  have hlog : admittedAt EgressDecision.allowed
      (w.log ++ [⟨other 9999, 60001, ⟨true, false, 1⟩⟩]) watched = [0, 0, 0, 0, 0] := by
    rw [admittedAt_snoc, if_neg (by simp [hne]), hw.admitted]
  have hall : (w.log ++ [(⟨other 9999, 60001, ⟨true, false, 1⟩⟩ :
      Entry Text EgressDecision)]).all (·.now ≤ 60001) = true := by
    simpa using hw.times
  rw [run_append, hrun, Option.bind_some, run, hstep, Option.bind_some, run, step, if_pos hall]
  have hallowed : (recordAt (fun _ => 5) windowOf (m'.sweep 60001 60000) watched 60001).1.allowed =
      true := by
    rw [record_fst]
    apply ((counts (fun _ => 5) windowOf).allowed_iff watched _ 60001).mpr
    right
    simp [EgressMonitor.slot, hgone]
  refine ⟨_, rfl, ?_⟩
  rw [admittedAt_snoc, if_pos ⟨rfl, hallowed⟩, hlog]
  change 5 < ([0, 0, 0, 0, 0] ++ [60001]).countP fun t =>
    60001 - windowOf watched < t && t ≤ 60001
  decide

end Klick.Egress
