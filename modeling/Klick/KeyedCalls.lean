-- A memory that decides on calls, each at a key and a time, and the limits of a sliding
-- window on what it admits. A call is decided by what the memory holds for its key; what it
-- holds for the others may be forgotten where no later decision asks for it.
import Klick.Interleaving
import Klick.SlidingWindow

open Interleaving SlidingWindow

namespace KeyedCalls

/-! ## Calls and their log -/

structure Entry (κ δ : Type) where
  key : κ
  now : ℤ
  decision : δ

structure World (M κ δ : Type) where
  memory : M
  log : List (Entry κ δ)

variable {M S κ δ : Type}

/-- A call at a time that is not before those of the calls so far. -/
def step (record : M → κ → ℤ → δ × M) (w : World M κ δ) (call : κ × ℤ) : Option (World M κ δ) :=
  if w.log.all (·.now ≤ call.2) then
    let (decision, memory) := record w.memory call.1 call.2
    some ⟨memory, w.log ++ [⟨call.1, call.2, decision⟩]⟩
  else none

theorem step_eq_some {record : M → κ → ℤ → δ × M} {w w' : World M κ δ} {call : κ × ℤ}
    (h : step record w call = some w') :
    (∀ e ∈ w.log, e.now ≤ call.2) ∧ w'.memory = (record w.memory call.1 call.2).2 ∧
      w'.log = w.log ++ [⟨call.1, call.2, (record w.memory call.1 call.2).1⟩] := by
  unfold step at h
  split at h
  · rename_i hall
    cases h
    exact ⟨by simpa using hall, rfl, rfl⟩
  · cases h

section Log

variable [DecidableEq κ]

def timesAt (log : List (Entry κ δ)) (k : κ) : List ℤ := (log.filter (·.key = k)).map (·.now)

def decisionsAt (log : List (Entry κ δ)) (k : κ) : List δ :=
  (log.filter (·.key = k)).map (·.decision)

/-- The times of the calls at a key that were admitted. -/
def admittedAt (allowed : δ → Bool) (log : List (Entry κ δ)) (k : κ) : List ℤ :=
  (log.filter fun e => e.key = k && allowed e.decision).map (·.now)

theorem timesAt_snoc (log : List (Entry κ δ)) (e : Entry κ δ) (k : κ) :
    timesAt (log ++ [e]) k = if e.key = k then timesAt log k ++ [e.now] else timesAt log k := by
  by_cases h : e.key = k <;> simp [timesAt, List.filter_append, h]

theorem decisionsAt_snoc (log : List (Entry κ δ)) (e : Entry κ δ) (k : κ) :
    decisionsAt (log ++ [e]) k =
      if e.key = k then decisionsAt log k ++ [e.decision] else decisionsAt log k := by
  by_cases h : e.key = k <;> simp [decisionsAt, List.filter_append, h]

theorem admittedAt_snoc (allowed : δ → Bool) (log : List (Entry κ δ)) (e : Entry κ δ) (k : κ) :
    admittedAt allowed (log ++ [e]) k =
      if e.key = k ∧ allowed e.decision = true then admittedAt allowed log k ++ [e.now]
      else admittedAt allowed log k := by
  by_cases h : e.key = k <;> by_cases ha : allowed e.decision = true <;>
    simp [admittedAt, List.filter_append, h, ha]

theorem mem_admittedAt {allowed : δ → Bool} {log : List (Entry κ δ)} {k : κ} {t : ℤ}
    (h : t ∈ admittedAt allowed log k) : ∃ e ∈ log, e.now = t := by
  obtain ⟨e, he, rfl⟩ := List.mem_map.mp h
  exact ⟨e, (List.mem_filter.mp he).1, rfl⟩

end Log

/-! ## One key alone -/

/-- The decisions on the calls at one key. -/
def decisions (one : S → ℤ → δ × S) : S → List ℤ → List δ
  | _, [] => []
  | s, t :: ts => (one s t).1 :: decisions one (one s t).2 ts

/-- What is held for the key after them. -/
def after (one : S → ℤ → δ × S) (s : S) (ts : List ℤ) : S := ts.foldl (fun s t => (one s t).2) s

theorem after_snoc (one : S → ℤ → δ × S) (s : S) (ts : List ℤ) (t : ℤ) :
    after one s (ts ++ [t]) = (one (after one s ts) t).2 := by
  simp [after]

theorem decisions_snoc (one : S → ℤ → δ × S) (s : S) (ts : List ℤ) (t : ℤ) :
    decisions one s (ts ++ [t]) = decisions one s ts ++ [(one (after one s ts) t).1] := by
  induction ts generalizing s with
  | nil => rfl
  | cons u us ih => simp [decisions, ih, after]

/-! ## Keys that do not disturb each other -/

/-- What is held for a key decides, two slots that are the same at a time decide alike from
then on, and a call leaves the slots of the other keys the same. -/
structure Independent (record : M → κ → ℤ → δ × M) (slot : M → κ → S) (one : κ → S → ℤ → δ × S)
    (same : κ → ℤ → S → S → Prop) (ok : M → κ × ℤ → Prop) : Prop where
  refl : ∀ k now s, same k now s s
  trans : ∀ {k now s t u}, same k now s t → same k now t u → same k now s u
  later : ∀ {k now now' s t}, now ≤ now' → same k now s t → same k now' s t
  decides : ∀ {k now s t}, same k now s t → (one k s now).1 = (one k t now).1
  keeps : ∀ {k now s t}, same k now s t → same k now (one k s now).2 (one k t now).2
  record_fst : ∀ m k now, (record m k now).1 = (one k (slot m k) now).1
  record_self : ∀ {m k now}, ok m (k, now) →
    same k now (slot (record m k now).2 k) (one k (slot m k) now).2
  record_ne : ∀ {m k now j}, ok m (k, now) → j ≠ k →
    same j now (slot (record m k now).2 j) (slot m j)

/-- Every key fares as it would alone. -/
structure AsAlone [DecidableEq κ] (slot : M → κ → S) (one : κ → S → ℤ → δ × S)
    (same : κ → ℤ → S → S → Prop) (m₀ : M) (w : World M κ δ) : Prop where
  decided : ∀ k, decisionsAt w.log k = decisions (one k) (slot m₀ k) (timesAt w.log k)
  held : ∀ k now, (∀ e ∈ w.log, e.now ≤ now) →
    same k now (slot w.memory k) (after (one k) (slot m₀ k) (timesAt w.log k))

/-- The calls at one key, one after the other. -/
theorem Independent.decisions_eq {record : M → κ → ℤ → δ × M} {slot : M → κ → S}
    {one : κ → S → ℤ → δ × S} {same : κ → ℤ → S → S → Prop} {ok : M → κ × ℤ → Prop}
    (h : Independent record slot one same ok) {k : κ} {m : M} {s : S} {ts : List ℤ}
    (hok : ∀ m t, ok m (k, t)) (hsame : ∀ t ∈ ts, same k t (slot m k) s)
    (hsorted : ts.Pairwise (· ≤ ·)) :
    decisions (fun m t => record m k t) m ts = decisions (one k) s ts := by
  induction ts generalizing m s with
  | nil => rfl
  | cons t ts ih =>
    obtain ⟨hle, hrest⟩ := List.pairwise_cons.mp hsorted
    have hnow := hsame t List.mem_cons_self
    unfold decisions
    rw [h.record_fst, h.decides hnow]
    congr 1
    apply ih _ hrest
    intro u hu
    exact h.later (hle u hu) (h.trans (h.record_self (hok m t)) (h.keeps hnow))

section Run

variable [DecidableEq κ] {record : M → κ → ℤ → δ × M} {slot : M → κ → S}
  {one : κ → S → ℤ → δ × S} {same : κ → ℤ → S → S → Prop} {ok : M → κ × ℤ → Prop}

theorem Independent.step_asAlone (h : Independent record slot one same ok) {m₀ : M}
    {w w' : World M κ δ} {call : κ × ℤ} (hw : AsAlone slot one same m₀ w) (hok : ok w.memory call)
    (hstep : step record w call = some w') : AsAlone slot one same m₀ w' := by
  obtain ⟨k, now⟩ := call
  obtain ⟨hle, hmemory, hlog⟩ := step_eq_some hstep
  have hheld := hw.held k now hle
  constructor
  · intro j
    rw [hlog, decisionsAt_snoc, timesAt_snoc]
    by_cases hj : k = j
    · subst hj
      rw [if_pos rfl, if_pos rfl, decisions_snoc, hw.decided, h.record_fst, h.decides hheld]
    · rw [if_neg hj, if_neg hj, hw.decided]
  · intro j now' hle'
    have hnow : now ≤ now' := hle' ⟨k, now, (record w.memory k now).1⟩ (by rw [hlog]; simp)
    rw [hlog, timesAt_snoc, hmemory]
    by_cases hj : k = j
    · subst hj
      rw [if_pos rfl, after_snoc]
      exact h.later hnow (h.trans (h.record_self hok) (h.keeps hheld))
    · rw [if_neg hj]
      exact h.later hnow (h.trans (h.record_ne hok (Ne.symm hj)) (hw.held j now hle))

/-- **In every run whose calls are ok, every key fares as it would alone.** -/
theorem Independent.run_asAlone (h : Independent record slot one same ok) {m₀ : M}
    {calls : List (κ × ℤ)} {w : World M κ δ}
    (halong : Along (step record) (fun w call => ok w.memory call) ⟨m₀, []⟩ calls)
    (hrun : run (step record) ⟨m₀, []⟩ calls = some w) : AsAlone slot one same m₀ w := by
  apply run_keeps (fun _ _ _ => h.step_asAlone) _ halong hrun
  exact ⟨fun _ => rfl, fun k now _ => h.refl k now _⟩

end Run

/-! ## Limits of a window -/

/-- The times after `from_`. -/
def live (from_ : ℤ) (times : List ℤ) : List ℤ := times.filter (from_ < ·)

theorem live_live {a b : ℤ} (h : a ≤ b) (times : List ℤ) : live b (live a times) = live b times := by
  unfold live
  rw [List.filter_filter]
  apply List.filter_congr
  intro t _
  simp only [Bool.and_eq_left_iff_imp, decide_eq_true_eq]
  omega

theorem live_congr {a b : ℤ} (h : a ≤ b) {s t : List ℤ} (heq : live a s = live a t) :
    live b s = live b t := by
  rw [← live_live h s, heq, live_live h t]

theorem length_live (from_ : ℤ) (times : List ℤ) :
    (live from_ times).length = times.countP (from_ < ·) := List.countP_eq_length_filter.symm

section Limit

variable [DecidableEq κ] (allowed : δ → Bool) (limit window : κ → ℤ)

/-- A call was admitted if and only if its key has no limit, or the window before it had room. -/
def Decided (log : List (Entry κ δ)) : Prop :=
  ∀ first e, first ++ [e] <+: log → (allowed e.decision = true ↔
    limit e.key ≤ 0 ∨ ((admittedAt allowed first e.key).countP (e.now - window e.key < ·) : ℤ) <
      limit e.key)

/-- The calls came one after the other. -/
def Timely (log : List (Entry κ δ)) : Prop :=
  ∀ first e, first ++ [e] <+: log → ∀ e' ∈ first, e'.now ≤ e.now

variable {allowed limit window}

theorem decided_snoc {log : List (Entry κ δ)} {e : Entry κ δ} (h : Decided allowed limit window log)
    (he : allowed e.decision = true ↔ limit e.key ≤ 0 ∨
      ((admittedAt allowed log e.key).countP (e.now - window e.key < ·) : ℤ) < limit e.key) :
    Decided allowed limit window (log ++ [e]) := by
  intro first x hx
  rcases List.prefix_concat_iff.mp hx with heq | hfirst
  · obtain ⟨rfl, hxe⟩ := List.append_inj' heq rfl
    cases hxe
    exact he
  · exact h first x hfirst

omit [DecidableEq κ] in
theorem timely_snoc {log : List (Entry κ δ)} {e : Entry κ δ} (h : Timely log)
    (he : ∀ e' ∈ log, e'.now ≤ e.now) : Timely (log ++ [e]) := by
  intro first x hx
  rcases List.prefix_concat_iff.mp hx with heq | hfirst
  · obtain ⟨rfl, hxe⟩ := List.append_inj' heq rfl
    cases hxe
    exact he
  · exact h first x hfirst

theorem Decided.of_prefix {first log : List (Entry κ δ)} (h : Decided allowed limit window log)
    (hfirst : first <+: log) : Decided allowed limit window first :=
  fun f e hf => h f e (hf.trans hfirst)

/-- **At most `limit` admitted calls in every interval as long as the window.** -/
theorem Decided.within {log : List (Entry κ δ)} (h : Decided allowed limit window log) {k : κ}
    (hlimit : 0 < limit k) : Within (limit k) (window k) (admittedAt allowed log k) := by
  induction log using List.reverseRecOn with
  | nil => exact within_nil hlimit.le _
  | append_singleton log e ih =>
    have hlog := ih (h.of_prefix (List.prefix_append _ _))
    rw [admittedAt_snoc]
    split
    · rename_i he
      obtain ⟨rfl, hallowed⟩ := he
      have hroom := ((h log e (List.prefix_refl _)).mp hallowed).resolve_left (by omega)
      exact within_snoc hlog hroom
    · exact hlog

/-- **A refused call has `limit` admitted ones in the window before it.** -/
theorem Decided.refused {log first : List (Entry κ δ)} {e : Entry κ δ}
    (h : Decided allowed limit window log) (htimely : Timely log) (he : first ++ [e] <+: log)
    (hrefused : allowed e.decision = false) :
    ((admittedAt allowed first e.key).countP fun t =>
      e.now - window e.key < t && t ≤ e.now : ℤ) = limit e.key := by
  have hnot : ¬ (limit e.key ≤ 0 ∨ _) := fun hroom => by
    rw [(h first e he).mpr hroom] at hrefused
    cases hrefused
  push Not at hnot
  obtain ⟨hlimit, hfull⟩ := hnot
  have hwithin := (h.of_prefix ((List.prefix_append first [e]).trans he)).within hlimit
  have hmost := hwithin _ (short_after (window e.key) (e.now - window e.key))
  simp only [sub_add_cancel] at hmost
  have heq : (admittedAt allowed first e.key).countP (fun t =>
      e.now - window e.key < t && t ≤ e.now) =
      (admittedAt allowed first e.key).countP (e.now - window e.key < ·) := by
    apply List.countP_congr
    intro t ht
    obtain ⟨e', he', rfl⟩ := mem_admittedAt ht
    simp [htimely first e he e' he']
  rw [heq] at hmost ⊢
  omega

end Limit

/-! ## Runs within the limits -/

/-- A key alone admits a call where the times that it holds have room for it, and holds the
admitted times as long as the window asks for them. -/
structure Counts (allowed : δ → Bool) (limit window : κ → ℤ) (one : κ → S → ℤ → δ × S)
    (hits : S → List ℤ) : Prop where
  allowed_iff : ∀ k s now, allowed (one k s now).1 = true ↔
    limit k ≤ 0 ∨ ((hits s).countP (now - window k < ·) : ℤ) < limit k
  hits_eq : ∀ k s now, 0 < limit k → live (now - window k) (hits (one k s now).2) =
    live (now - window k) (if allowed (one k s now).1 then hits s ++ [now] else hits s)

/-- Every key fares as it would alone, within its limit. -/
structure Counted [DecidableEq κ] (allowed : δ → Bool) (limit window : κ → ℤ) (slot : M → κ → S)
    (one : κ → S → ℤ → δ × S) (same : κ → ℤ → S → S → Prop) (hits : S → List ℤ) (m₀ : M)
    (w : World M κ δ) : Prop extends AsAlone slot one same m₀ w where
  decides : Decided allowed limit window w.log
  timely : Timely w.log
  hits_eq : ∀ k now, 0 < limit k → (∀ e ∈ w.log, e.now ≤ now) →
    live (now - window k) (hits (after (one k) (slot m₀ k) (timesAt w.log k))) =
      live (now - window k) (admittedAt allowed w.log k)

section Counted

variable [DecidableEq κ] {allowed : δ → Bool} {limit window : κ → ℤ}
  {record : M → κ → ℤ → δ × M} {slot : M → κ → S} {one : κ → S → ℤ → δ × S}
  {same : κ → ℤ → S → S → Prop} {hits : S → List ℤ} {ok : M → κ × ℤ → Prop}

theorem Counts.step_counted (hc : Counts allowed limit window one hits)
    (h : Independent record slot one same ok) {m₀ : M} {w w' : World M κ δ} {call : κ × ℤ}
    (hw : Counted allowed limit window slot one same hits m₀ w) (hok : ok w.memory call)
    (hstep : step record w call = some w') :
    Counted allowed limit window slot one same hits m₀ w' := by
  have halone := h.step_asAlone hw.toAsAlone hok hstep
  obtain ⟨k, now⟩ := call
  obtain ⟨hle, -, hlog⟩ := step_eq_some hstep
  have hdecision : (record w.memory k now).1 =
      (one k (after (one k) (slot m₀ k) (timesAt w.log k)) now).1 := by
    rw [h.record_fst, h.decides (hw.held k now hle)]
  refine ⟨halone, ?_, ?_, ?_⟩
  · rw [hlog]
    apply decided_snoc hw.decides
    rw [hdecision, hc.allowed_iff]
    by_cases hlimit : limit k ≤ 0
    · simp [hlimit]
    · have heq := hw.hits_eq k now (by omega) hle
      have hlength := congrArg List.length heq
      rw [length_live, length_live] at hlength
      rw [hlength]
  · rw [hlog]
    exact timely_snoc hw.timely hle
  · intro j now' hlimit hle'
    have hnow : now ≤ now' := hle' ⟨k, now, (record w.memory k now).1⟩ (by rw [hlog]; simp)
    have hback := hw.hits_eq j now hlimit hle
    have hfrom : now - window j ≤ now' - window j := by omega
    rw [hlog, timesAt_snoc, admittedAt_snoc]
    by_cases hj : k = j
    · subst hj
      rw [if_pos rfl, after_snoc]
      rw [live_congr hfrom (hc.hits_eq k _ now hlimit)]
      simp only [hdecision, true_and]
      split
      · unfold live at hback ⊢
        rw [List.filter_append, List.filter_append]
        have := live_congr hfrom hback
        unfold live at this
        rw [this]
      · exact live_congr hfrom hback
    · rw [if_neg hj, if_neg (by simp [hj])]
      exact live_congr hfrom hback

/-- **In every run whose calls are ok, every key fares as it would alone, within its limit.** -/
theorem Counts.run_counted (hc : Counts allowed limit window one hits)
    (h : Independent record slot one same ok) {m₀ : M} (hempty : ∀ k, hits (slot m₀ k) = [])
    {calls : List (κ × ℤ)} {w : World M κ δ}
    (halong : Along (step record) (fun w call => ok w.memory call) ⟨m₀, []⟩ calls)
    (hrun : run (step record) ⟨m₀, []⟩ calls = some w) :
    Counted allowed limit window slot one same hits m₀ w := by
  apply run_keeps (fun _ _ _ => hc.step_counted h) _ halong hrun
  refine ⟨⟨fun _ => rfl, fun k now _ => h.refl k now _⟩, ?_, ?_, ?_⟩
  · intro first e he
    simp at he
  · intro first e he
    simp at he
  · intro k now _ _
    simp [after, timesAt, admittedAt, hempty]

end Counted

/-! ## A key alone, admitted completely -/

section Complete

variable {allowed : δ → Bool} {limit window : κ → ℤ} {one : κ → S → ℤ → δ × S} {hits : S → List ℤ}

/-- As long as every call is admitted, the times that are held are those of the calls. -/
theorem Counts.hits_after (hc : Counts allowed limit window one hits) {k : κ} {s : S}
    (hlimit : 0 < limit k) (hempty : hits s = []) {ts : List ℤ} (hsorted : ts.Pairwise (· ≤ ·))
    (hall : ∀ d ∈ decisions (one k) s ts, allowed d = true) (now : ℤ) (hle : ∀ t ∈ ts, t ≤ now) :
    live (now - window k) (hits (after (one k) s ts)) = live (now - window k) ts := by
  induction ts using List.reverseRecOn generalizing now with
  | nil => rw [after, List.foldl_nil, hempty]
  | append_singleton ts t ih =>
    obtain ⟨hrest, -, hlast⟩ := List.pairwise_append.mp hsorted
    rw [decisions_snoc] at hall
    have hprev := ih hrest (fun d hd => hall d (List.mem_append_left _ hd)) t
      (fun u hu => hlast u hu t List.mem_cons_self)
    have hadmitted := hall _ (List.mem_append_right _ List.mem_cons_self)
    have hnow : t - window k ≤ now - window k := by
      have := hle t (List.mem_append_right _ List.mem_cons_self)
      omega
    rw [after_snoc, live_congr hnow (hc.hits_eq k _ t hlimit), if_pos hadmitted]
    have hback := live_congr hnow hprev
    unfold live at hback ⊢
    rw [List.filter_append, List.filter_append, hback]

/-- **Every call is admitted if and only if no interval as long as the window holds more than
the limit.** -/
theorem Counts.all_allowed_iff (hc : Counts allowed limit window one hits) {k : κ} {s : S}
    (hlimit : 0 < limit k) (hwindow : 0 < window k) (hempty : hits s = []) {ts : List ℤ}
    (hsorted : ts.Pairwise (· ≤ ·)) :
    (∀ d ∈ decisions (one k) s ts, allowed d = true) ↔ Within (limit k) (window k) ts := by
  induction ts using List.reverseRecOn with
  | nil => simp [decisions, within_nil hlimit.le]
  | append_singleton ts t ih =>
    obtain ⟨hrest, -, hlast⟩ := List.pairwise_append.mp hsorted
    have hle : ∀ u ∈ ts, u ≤ t := fun u hu => hlast u hu t List.mem_cons_self
    have hroom : (∀ d ∈ decisions (one k) s ts, allowed d = true) →
        (allowed (one k (after (one k) s ts) t).1 = true ↔
          (ts.countP (t - window k < ·) : ℤ) < limit k) := by
      intro hall
      have hheld := congrArg List.length (hc.hits_after hlimit hempty hrest hall t hle)
      rw [length_live, length_live] at hheld
      rw [hc.allowed_iff, hheld]
      simp [Int.not_le.mpr hlimit]
    rw [decisions_snoc]
    simp only [List.mem_append, List.mem_singleton, or_imp, forall_and, forall_eq]
    constructor
    · rintro ⟨hall, hadmitted⟩
      exact within_snoc ((ih hrest).mp hall) ((hroom hall).mp hadmitted)
    · intro hwithin
      have hearlier := within_of_prefix hwithin
      have hall := (ih hrest).mpr hearlier
      exact ⟨hall, (hroom hall).mpr (room_of_within hwindow hle hwithin)⟩

end Complete

end KeyedCalls
