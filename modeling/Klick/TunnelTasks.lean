-- The tasks of an apply with commands that fail: where they break off, what they
-- have done until then, and what is left of the former tunnel.
import Klick.TunnelSlots

open Js

namespace Klick.SiteTunnels

open Agent (isIpsec sameTech switchTasks)

/-! ## How commands fail -/

/-- A clean-up that fails has nothing to take away. -/
def CleansUp : Session → List Task → Prop
  | _, [] => True
  | s, .attempt c :: ts =>
    (s.answer.code = 0 ∨ c.effect s.runtime = s.runtime) ∧ CleansUp (s.run c) ts
  | s, .require c :: ts => s.answer.code = 0 → CleansUp (s.run c) ts
  | s, .file id text :: ts => CleansUp (s.setConf id text) ts

/-- Behind the command that breaks the tasks off there is nothing to clean up. -/
def BreaksOffLate : Session → List Task → Prop
  | _, [] => True
  | s, .attempt c :: ts => BreaksOffLate (s.run c) ts
  | s, .require c :: ts => if s.answer.code = 0 then BreaksOffLate (s.run c) ts else AllRequired ts
  | s, .file id text :: ts => BreaksOffLate (s.setConf id text) ts

/-- The first command that must succeed fails. -/
def stallsAtOnce : Session → List Task → Bool
  | _, [] => false
  | s, .attempt c :: ts => stallsAtOnce (s.run c) ts
  | s, .require _ :: _ => s.answer.code ≠ 0
  | s, .file id none :: ts => stallsAtOnce (s.setConf id none) ts
  | _, .file _ (some _) :: _ => false

/-- The tasks do their work up to where they break off. -/
structure Performed (s : Session) (ts before rest : List Task) : Prop where
  split : ts = before ++ rest
  runtime : (s.perform ts).2.runtime = after before s.runtime
  all : (s.perform ts).1 = none → rest = []
  late : BreaksOffLate s ts → AllRequired rest
  stalled : stallsAtOnce s ts = true → ∀ t ∈ before, t.IsCleanUp

theorem Performed.cons {s s' : Session} {t : Task} {ts before rest : List Task}
    (h : Performed s' ts before rest) (hrun : s.perform (t :: ts) = s'.perform ts)
    (hruntime : s'.runtime = t.effect s.runtime)
    (hlate : BreaksOffLate s (t :: ts) → BreaksOffLate s' ts)
    (hstall : stallsAtOnce s (t :: ts) = true → t.IsCleanUp ∧ stallsAtOnce s' ts = true) :
    Performed s (t :: ts) (t :: before) rest where
  split := by rw [h.split, List.cons_append]
  runtime := by rw [hrun, h.runtime, hruntime, after_cons]
  all := by rw [hrun]; exact h.all
  late := fun hl => h.late (hlate hl)
  stalled := by
    intro hs u hu
    rcases List.mem_cons.mp hu with rfl | hu
    · exact (hstall hs).1
    · exact h.stalled (hstall hs).2 u hu

theorem performed_of_cleansUp {s : Session} {ts : List Task} (h : CleansUp s ts) :
    ∃ before rest, Performed s ts before rest := by
  induction ts generalizing s with
  | nil =>
    exact ⟨[], [], rfl, rfl, fun _ => rfl, fun _ _ ht => absurd ht List.not_mem_nil,
      fun _ _ ht => absurd ht List.not_mem_nil⟩
  | cons t ts ih =>
    cases t with
    | attempt c =>
      obtain ⟨before, rest, hp⟩ := ih h.2
      refine ⟨_, _, hp.cons rfl ?_ id fun hs => ⟨trivial, hs⟩⟩
      rcases h.1 with hok | hnothing
      · simp [Session.run, hok, Task.effect]
      · by_cases hok : s.answer.code = 0 <;> simp [Session.run, hok, Task.effect, hnothing]
    | require c =>
      by_cases hok : s.answer.code = 0
      · obtain ⟨before, rest, hp⟩ := ih (h hok)
        refine ⟨_, _, hp.cons ?_ ?_ ?_ ?_⟩
        · rw [Session.perform, if_pos hok]
        · simp [Session.run, hok, Task.effect]
        · intro hl
          rwa [BreaksOffLate, if_pos hok] at hl
        · intro hs
          simp [stallsAtOnce, hok] at hs
      · refine ⟨[], .require c :: ts, rfl, ?_, ?_, ?_, fun _ t ht => by cases ht⟩
        · simp [Session.perform, hok, Session.run]
        · simp [Session.perform, hok]
        · intro hl t ht
          rw [BreaksOffLate, if_neg hok] at hl
          rcases List.mem_cons.mp ht with rfl | ht
          · exact ⟨c, rfl⟩
          · exact hl t ht
    | file id text =>
      obtain ⟨before, rest, hp⟩ := ih h
      refine ⟨_, _, hp.cons rfl rfl (fun hl => hl) ?_⟩
      intro hs
      cases text with
      | none => exact ⟨rfl, hs⟩
      | some text => cases hs

theorem perform_append (s : Session) (ts us : List Task) :
    s.perform (ts ++ us) =
      match s.perform ts with
      | (none, s') => s'.perform us
      | (some e, s') => (some e, s') := by
  induction ts generalizing s with
  | nil => rfl
  | cons t ts ih =>
    cases t with
    | attempt c => exact ih (s.run c)
    | file id text => exact ih (s.setConf id text)
    | require c =>
      rw [List.cons_append, Session.perform, Session.perform]
      by_cases hok : s.answer.code = 0
      · rw [if_pos hok, if_pos hok, ih]
      · rw [if_neg hok, if_neg hok]

/-! ## Applying a tunnel -/

/-- All tasks of an apply but the file of the connection. -/
def applyTasks (prev : Option TunnelSpec) (spec : TunnelSpec) : List Task :=
  switchTasks spec prev ++ setUpTasks spec (sameTech spec prev)

theorem sameTech_eq {spec p : TunnelSpec} (h : isIpsec p.tech = isIpsec spec.tech) :
    sameTech spec (some p) = some p := by
  simp [sameTech, h]

theorem applyTasks_same {spec p : TunnelSpec} (h : isIpsec p.tech = isIpsec spec.tech) :
    applyTasks (some p) spec = setUpTasks spec (some p) := by
  simp [applyTasks, switchTasks, sameTech_eq h, h]

theorem applyTasks_other {spec p : TunnelSpec} (h : isIpsec p.tech ≠ isIpsec spec.tech) :
    applyTasks (some p) spec = teardownTasks p ++ setUpTasks spec none := by
  simp [applyTasks, switchTasks, sameTech, Option.filter, h]

theorem applyTasks_new (spec : TunnelSpec) : applyTasks none spec = setUpTasks spec none := rfl

/-- What an apply writes: at a place of the new tunnel what it has there, or that a place of the
former tunnel is empty. -/
theorem applyTasks_writes (serverIp : Text) {spec : TunnelSpec} {prev : Option TunnelSpec} {t : Task}
    {slot : Slot} {w : Option Entry} (ht : t ∈ applyTasks prev spec) (hw : t.writes slot = some w) :
    (w = entriesOf serverIp spec slot ∧ Owns spec slot) ∨
      (w = none ∧ ∃ p, prev = some p ∧ Owns p slot) := by
  have hsetUp : ∀ {prev'}, t ∈ setUpTasks spec prev' →
      (w = none → ∃ p, prev = some p ∧ Owns p slot) →
      (w = entriesOf serverIp spec slot ∧ Owns spec slot) ∨
        (w = none ∧ ∃ p, prev = some p ∧ Owns p slot) := by
    intro prev' hmem hprev
    have heq := setUp_writes serverIp hmem hw
    cases w with
    | some e => exact .inl ⟨heq, owns_of_entry heq.symm⟩
    | none => exact .inr ⟨rfl, hprev rfl⟩
  cases prev with
  | none =>
    refine hsetUp ht fun hnone => ?_
    subst hnone
    exact absurd hw (setUp_new_clears ht)
  | some p =>
    by_cases htech : isIpsec p.tech = isIpsec spec.tech
    · rw [applyTasks_same htech] at ht
      refine hsetUp ht fun hnone => ?_
      subst hnone
      exact ⟨p, rfl, setUp_clears htech ht hw⟩
    · rw [applyTasks_other htech] at ht
      rcases List.mem_append.mp ht with ht | ht
      · obtain ⟨hnone, howns⟩ := teardown_writes ht hw
        exact .inr ⟨hnone, p, rfl, howns⟩
      · refine hsetUp ht fun hnone => ?_
        subst hnone
        exact absurd hw (setUp_new_clears ht)

/-- An apply takes away what the former tunnel has beyond the new one. -/
theorem applyTasks_cleansUp {spec p : TunnelSpec} (hid : p.id = spec.id) {slot : Slot}
    (h : Owns p slot) (hnot : ¬ Owns spec slot) :
    ∃ t ∈ applyTasks (some p) spec, t.IsCleanUp ∧ t.writes slot = some none := by
  by_cases htech : isIpsec p.tech = isIpsec spec.tech
  · rw [applyTasks_same htech]
    exact setUp_cleansUp hid htech h hnot
  · rw [applyTasks_other htech]
    obtain ⟨t, ht, hclean⟩ := teardown_cleansUp h
    exact ⟨t, List.mem_append_left _ ht, hclean⟩

theorem applyTasks_steals {spec : TunnelSpec} {prev : Option TunnelSpec} {t : Task}
    (ht : t ∈ applyTasks prev spec) :
    t.steals = [] ∨ ∃ key psk, spec.tech = .wireguard key psk ∧
      t = .require (.setPeer key psk spec.nets) := by
  rcases List.mem_append.mp ht with ht | ht
  · left
    unfold switchTasks at ht
    split at ht
    · split at ht
      · cases ht
      · exact teardown_steals ht
    · cases ht
  · exact setUp_steals ht

theorem steals_subset {spec : TunnelSpec} {prev : Option TunnelSpec} {t : Task}
    (ht : t ∈ applyTasks prev spec) : ∀ n ∈ t.steals, n ∈ spec.nets := by
  rcases applyTasks_steals ht with h | ⟨key, psk, _, rfl⟩
  · rw [h]
    exact fun n hn => by cases hn
  · exact fun n hn => hn

theorem applyTasks_cleanUp_writes {spec : TunnelSpec} {prev : Option TunnelSpec} {t : Task}
    {slot : Slot} {w : Option Entry} (ht : t ∈ applyTasks prev spec) (hclean : t.IsCleanUp)
    (hw : t.writes slot = some w) : w = none := by
  rcases List.mem_append.mp ht with ht | ht
  · unfold switchTasks at ht
    split at ht
    · split at ht
      · cases ht
      · exact (teardown_writes ht hw).1
    · cases ht
  · rcases mem_setUpTasks.mp ht with
      ⟨key, psk, _, ⟨p, former, q, _, _, _, rfl⟩ | rfl | ⟨n, _, rfl⟩ | ⟨n, _, rfl⟩⟩ |
      ⟨p, _, _, rfl⟩ | ⟨n, _, rfl⟩ | rfl | rfl
    · exact (Task.writes_iff.mp hw).2.symm
    · cases hclean
    · exact (Task.writes_iff.mp hw).2.symm
    · cases hclean
    · exact (Task.writes_iff.mp hw).2.symm
    · exact (Task.writes_iff.mp hw).2.symm
    · cases hclean
    · cases hclean

section Applying

variable {spec : TunnelSpec} {prev : Option TunnelSpec} {before rest : List Task} {r : Runtime}
  {slot : Slot}

/-- Frame: an apply leaves what is not of its tunnel as it is. -/
theorem after_outside (hsub : ∀ t ∈ before, t ∈ applyTasks prev spec) (hspec : ¬ Owns spec slot)
    (hprev : ∀ p, prev = some p → ¬ Owns p slot)
    (hr : ∀ e, r slot = some e → ∃ own, e.Within own ∧ ∀ n ∈ own, n ∉ spec.nets) :
    after before r slot = r slot := by
  apply after_of_unwritten
  · intro t ht
    by_contra hne
    obtain ⟨w, hw⟩ := Option.ne_none_iff_exists'.mp hne
    rcases applyTasks_writes [] (hsub t ht) hw with ⟨_, howns⟩ | ⟨_, p, hp, howns⟩
    · exact hspec howns
    · exact hprev p hp howns
  · intro e he t ht _
    obtain ⟨own, hwithin, hdisjoint⟩ := hr e he
    exact Entry.without_eq hwithin fun n hn hin => hdisjoint n hn (steals_subset (hsub t ht) n hin)

/-- What the former tunnel has beyond the new one is gone, or it was not there. -/
theorem after_dropped {p : TunnelSpec} (hid : p.id = spec.id)
    (hsplit : applyTasks (some p) spec = before ++ rest) (hp : Owns p slot)
    (hspec : ¬ Owns spec slot) (hlate : r slot = none ∨ AllRequired rest) :
    after before r slot = none := by
  have hall : ∀ t ∈ before, ∀ v, t.writes slot = some v → v = none := by
    intro t ht v hv
    have hmem : t ∈ applyTasks (some p) spec := hsplit ▸ List.mem_append_left _ ht
    rcases applyTasks_writes [] hmem hv with ⟨_, howns⟩ | ⟨hnone, _⟩
    · exact absurd howns hspec
    · exact hnone
  rcases hlate with hr | hreq
  · exact after_of_empty hr hall
  · -- the clean-up of the place stands before the command that failed
    obtain ⟨t, ht, hclean, hw⟩ := applyTasks_cleansUp hid hp hspec
    rw [hsplit] at ht
    have hbefore : t ∈ before := by
      rcases List.mem_append.mp ht with h | h
      · exact h
      · obtain ⟨c, rfl⟩ := hreq t h
        cases hclean
    exact after_of_written r hall (fun e he => by cases he) ⟨t, hbefore, by rw [hw]; rfl⟩

/-- An apply that stalls at once leaves nothing where nothing was. -/
theorem after_stalled (hsub : ∀ t ∈ before, t ∈ applyTasks prev spec)
    (hclean : ∀ t ∈ before, t.IsCleanUp) (hr : r slot = none) : after before r slot = none :=
  after_of_empty hr fun t ht _ hv => applyTasks_cleanUp_writes (hsub t ht) (hclean t ht) hv

theorem unstolen_entriesOf (serverIp : Text) (spec : TunnelSpec) (prev : Option TunnelSpec)
    (slot : Slot) : Unstolen (setUpTasks spec prev) slot (entriesOf serverIp spec slot) := by
  intro e he t ht hw
  rcases setUp_steals ht with hnil | ⟨key, psk, hspec, rfl⟩
  · rw [hnil]
    exact Entry.without_eq (within_entriesOf he) fun n _ hin => by cases hin
  · -- the peer of the tunnel is what the command writes
    have hslot : netsAt spec slot = [] := by
      cases slot with
      | peer key' =>
        obtain ⟨psk', hspec'⟩ := owns_peer.mp (owns_of_entry he)
        rw [hspec] at hspec'
        cases hspec'
        simp [Task.writes, Command.writes] at hw
      | _ => rfl
    exact Entry.without_eq (within_entriesOf he) fun n hn _ => by rw [hslot] at hn; cases hn

/-- All tasks done, the tunnel has what it should have, but for the file of its connection. -/
theorem after_applyTasks (serverIp : Text) (hspec : Owns spec slot) (hconf : ∀ id, slot ≠ .conf id) :
    after (applyTasks prev spec) r slot = entriesOf serverIp spec slot := by
  rw [applyTasks, after_append]
  exact after_of_written _ (fun t ht v hv => setUp_writes serverIp ht hv)
    (unstolen_entriesOf serverIp spec _ slot) (setUp_covers _ hspec hconf)

/-- The peer is set before the routes of dropped networks are deleted. -/
theorem setPeer_first {p : TunnelSpec} {key psk n : Text} (hspec : spec.tech = .wireguard key psk)
    (hsplit : setUpTasks spec (some p) = before ++ rest)
    (hn : .attempt (.deleteRoute n) ∈ before) : .require (.setPeer key psk spec.nets) ∈ before := by
  obtain ⟨pre, post, htasks, hpre⟩ : ∃ pre post, setUpTasks spec (some p) =
      pre ++ .require (.setPeer key psk spec.nets) :: post ∧
        ∀ t ∈ pre, ∃ k, t = .attempt (.removePeer k) := by
    unfold setUpTasks peerTasks
    rw [hspec]
    refine ⟨_, _, by simp only [List.append_assoc, List.cons_append]; rfl, ?_⟩
    intro t ht
    split at ht
    · split at ht
      · exact ⟨_, List.mem_singleton.mp ht⟩
      · cases ht
    · cases ht
  rw [hsplit] at htasks
  rcases List.append_eq_append_iff.mp htasks with ⟨mid, hmid, _⟩ | ⟨mid, hmid, hrest⟩
  · obtain ⟨k, hk⟩ := hpre _ (by rw [hmid]; exact List.mem_append_left _ hn)
    cases hk
  · cases mid with
    | nil =>
      rw [List.append_nil] at hmid
      obtain ⟨k, hk⟩ := hpre _ (hmid ▸ hn)
      cases hk
    | cons t mid =>
      rw [List.cons_append, List.cons.injEq] at hrest
      rw [hmid, hrest.1]
      exact List.mem_append_right _ List.mem_cons_self

/-- The peer of a tunnel is allowed no networks but those of the tunnel. -/
theorem after_within_nets (hsplit : applyTasks prev spec = before ++ rest) (hspec : Owns spec slot)
    (hr : ∀ e, r slot = some e → ∃ p, prev = some p ∧ Owns p slot ∧ e.Within (netsAt p slot))
    (hlate : r slot = none ∨ AllRequired rest) {e : Entry} (he : after before r slot = some e) :
    e.Within (netsAt spec slot) := by
  have hsub : ∀ t ∈ before, t ∈ applyTasks prev spec :=
    fun t ht => hsplit ▸ List.mem_append_left _ ht
  have hall : ∀ t ∈ before, ∀ e, t.writes slot = some (some e) → e.Within (netsAt spec slot) := by
    intro t ht e hw
    rcases applyTasks_writes [] (hsub t ht) hw with ⟨heq, _⟩ | ⟨hnone, _⟩
    · exact within_entriesOf heq.symm
    · cases hnone
  cases hold : r slot with
  | none => exact after_within (fun e he => by rw [hold] at he; cases he) hall he
  | some e0 =>
    obtain ⟨p, rfl, hp, hwithin⟩ := hr e0 hold
    have hreq := hlate.resolve_left (by rw [hold]; exact nofun)
    cases slot with
    | peer key =>
      obtain ⟨q, hptech⟩ := owns_peer.mp hp
      obtain ⟨psk, hstech⟩ := owns_peer.mp hspec
      have htech : isIpsec p.tech = isIpsec spec.tech := by rw [hptech, hstech]; rfl
      rw [applyTasks_same htech] at hsplit
      by_cases hdrop : ∃ n, n ∈ p.nets ∧ n ∉ spec.nets
      · -- the peer has been set anew
        obtain ⟨n, hn⟩ := hdrop
        have hclean : Task.attempt (.deleteRoute n) ∈ setUpTasks spec (some p) :=
          mem_setUpTasks.mpr (.inl ⟨key, psk, hstech, .inr (.inr (.inl
            ⟨n, mem_droppedNets.mpr hn, rfl⟩))⟩)
        have hbefore : Task.attempt (.deleteRoute n) ∈ before := by
          rw [hsplit] at hclean
          rcases List.mem_append.mp hclean with h | h
          · exact h
          · obtain ⟨c, hc⟩ := hreq _ h
            cases hc
        have hset := setPeer_first hstech hsplit hbefore
        have hmem : ∀ t ∈ before, t ∈ setUpTasks spec (some p) :=
          fun t ht => hsplit ▸ List.mem_append_left _ ht
        have hend : after before r (.peer key) = entriesOf [] spec (.peer key) :=
          after_of_written r (fun t ht v hv => setUp_writes [] (hmem t ht) hv)
            (fun e he t ht hw => unstolen_entriesOf [] spec _ _ e he t (hmem t ht) hw)
            ⟨_, hset, by simp [Task.writes, Command.writes]⟩
        rw [hend] at he
        exact within_entriesOf he
      · push Not at hdrop
        refine after_within (fun e he => ?_) hall he
        rw [hold] at he
        cases he
        exact hwithin.mono hdrop
    | route n =>
      exact after_within (fun e he => by rw [hold] at he; cases he; exact hwithin) hall he
    | element set v =>
      exact after_within (fun e he => by rw [hold] at he; cases he; exact hwithin) hall he
    | conf id =>
      exact after_within (fun e he => by rw [hold] at he; cases he; exact hwithin) hall he

end Applying

end Klick.SiteTunnels
