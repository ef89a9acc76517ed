-- Runs of the network agent: tunnels applied and removed, again and again, with
-- commands that fail. An apply stores the new specification before it touches the
-- managed state, and computes what to take away from the stored one. So what a
-- failed apply has not taken away, no later one takes away.
import Klick.TunnelTasks

open Js

namespace Klick.SiteTunnels

open Agent (isIpsec sameTech switchTasks)
open Net (parseCidr)

/-! ## Runs -/

inductive Op
  | apply (raw : Value)
  | remove (rawId : Value)

/-- How far a tunnel is set up: not at all, since its last apply succeeded, or somewhere between,
since an operation on it broke off. -/
inductive Standing
  | nothing
  | halfway
  | setUp
deriving DecidableEq

structure State where
  agent : Agent
  runtime : Runtime
  standing : Text → Standing

namespace State

/-- An agent that knows no tunnel, on a server without any. -/
def fresh (a : Agent) : State := ⟨{ a with specs := .empty }, .empty, fun _ => .nothing⟩

/-- The session of the next operation, with what its commands will answer. -/
def session (st : State) (answers : List RunResult) : Session := ⟨st.runtime, answers, []⟩

/-- The specification that an apply accepts. -/
def accepted (st : State) (raw : Value) : Option TunnelSpec :=
  match validateSpec raw with
  | .error _ => none
  | .ok spec => if st.agent.conflicts spec = none then some spec else none

/-- The tunnel that a remove is about. -/
def known (st : State) (rawId : Value) : Option TunnelSpec :=
  match validateId rawId with
  | .error _ => none
  | .ok id => st.agent.specs.get id

def standingOfApply (st : State) (s : Session) (spec : TunnelSpec) (r : Except Thrown Bool) :
    Standing :=
  match r with
  | .ok _ => .setUp
  | .error _ =>
    if st.standing spec.id = .nothing ∧
      stallsAtOnce s (applyTasks (st.agent.specs.get spec.id) spec) = true then .nothing
    else .halfway

def standingOfRemove (st : State) (spec : TunnelSpec) (r : Except Thrown Bool) : Standing :=
  match r with
  | .ok _ => .nothing
  | .error _ => if st.standing spec.id = .nothing then .nothing else .halfway

def step (st : State) (answers : List RunResult) : Op → State
  | .apply raw =>
    let (r, agent, s) := st.agent.apply (st.session answers) raw
    { agent
      runtime := s.runtime
      standing := match st.accepted raw with
        | none => st.standing
        | some spec => Function.update st.standing spec.id
            (st.standingOfApply (st.session answers) spec r) }
  | .remove rawId =>
    let (r, agent, s) := st.agent.remove (st.session answers) rawId
    { agent
      runtime := s.runtime
      standing := match st.known rawId with
        | none => st.standing
        | some spec => Function.update st.standing spec.id (st.standingOfRemove spec r) }

/-- No other known tunnel has the WireGuard key. -/
def KeyIsFree (st : State) (spec : TunnelSpec) : Prop :=
  ∀ id other, st.agent.specs.get id = some other → id ≠ spec.id →
    ∀ key p q, spec.tech = .wireguard key p → other.tech ≠ .wireguard key q

/-- An operation with commands that fail harmlessly: a clean-up only fails where there is nothing
to take away, and an apply breaks off behind its last clean-up, or nothing of the tunnel was set up
before. -/
def Harmless (st : State) (answers : List RunResult) : Op → Prop
  | .apply raw => ∀ spec, st.accepted raw = some spec →
    let tasks := applyTasks (st.agent.specs.get spec.id) spec
    st.KeyIsFree spec ∧ CleansUp (st.session answers) tasks ∧
      (st.standing spec.id = .nothing ∨ BreaksOffLate (st.session answers) tasks)
  | .remove rawId => ∀ spec, st.known rawId = some spec →
    CleansUp (st.session answers) (teardownTasks spec)

/-- The states of the runs in which every operation is harmless. -/
inductive Reached : State → Prop
  | fresh (a : Agent) : Reached (State.fresh a)
  | step {st : State} {answers : List RunResult} {op : Op} (h : Reached st)
      (hop : st.Harmless answers op) : Reached (st.step answers op)

/-! ## Properties of a state -/

/-- Every entry belongs to a known tunnel of which something is set up. -/
def NoResidue (st : State) : Prop :=
  ∀ slot e, st.runtime slot = some e → ∃ id spec, st.agent.specs.get id = some spec ∧
    st.standing id ≠ .nothing ∧ Owns spec slot

/-- A tunnel whose last apply succeeded has all its entries. -/
def Complete (st : State) : Prop :=
  ∀ id spec, st.agent.specs.get id = some spec → st.standing id = .setUp →
    ∀ slot e, entriesOf st.agent.serverIp spec slot = some e → st.runtime slot = some e

/-- The managed state holds exactly the entries of the tunnels whose last apply succeeded. -/
def Exact (st : State) : Prop :=
  ∀ slot e, st.runtime slot = some e ↔ ∃ id spec, st.agent.specs.get id = some spec ∧
    st.standing id = .setUp ∧ entriesOf st.agent.serverIp spec slot = some e

/-- The tunnel that an operation is about. -/
def subject (st : State) : Op → Option Text
  | .apply raw => (st.accepted raw).map (·.id)
  | .remove rawId => (st.known rawId).map (·.id)

/-- An operation changes no entry of another tunnel. -/
def LeavesOthers (st : State) (answers : List RunResult) (op : Op) : Prop :=
  ∀ id spec, st.agent.specs.get id = some spec → st.subject op ≠ some id →
    ∀ slot, Owns spec slot → (st.step answers op).runtime slot = st.runtime slot

/-! ## The invariant -/

/-- Two tunnels that have nothing in common. -/
structure Apart (spec other : TunnelSpec) : Prop where
  slots : ∀ slot, Owns spec slot → ¬ Owns other slot
  nets : ∀ n ∈ spec.nets, n ∉ other.nets

theorem Apart.symm {spec other : TunnelSpec} (h : Apart spec other) : Apart other spec :=
  ⟨fun slot ho hs => h.slots slot hs ho, fun n ho hs => h.nets n hs ho⟩

structure Inv (st : State) : Prop where
  keyed : ∀ id spec, st.agent.specs.get id = some spec → spec.id = id
  readable : ∀ id spec, st.agent.specs.get id = some spec →
    ∀ n ∈ spec.nets, (parseCidr n).isSome = true
  apart : ∀ i j spec other, st.agent.specs.get i = some spec → st.agent.specs.get j = some other →
    i ≠ j → Apart spec other
  noResidue : ∀ slot e, st.runtime slot = some e → ∃ id spec, st.agent.specs.get id = some spec ∧
    st.standing id ≠ .nothing ∧ Owns spec slot ∧ e.Within (netsAt spec slot)
  complete : st.Complete

theorem inv_fresh (a : Agent) : Inv (State.fresh a) where
  keyed := fun _ _ h => by cases h
  readable := fun _ _ h => by cases h
  apart := fun _ _ _ _ h => by cases h
  noResidue := fun _ _ h => by cases h
  complete := fun _ _ h => by cases h

theorem Inv.exact {st : State} (h : Inv st) (hall : ∀ id, st.standing id ≠ .halfway) :
    st.Exact := by
  intro slot e
  constructor
  · intro he
    obtain ⟨id, spec, hget, hstanding, howns, _⟩ := h.noResidue slot e he
    have hsetUp : st.standing id = .setUp := by
      cases hs : st.standing id with
      | nothing => exact absurd hs hstanding
      | halfway => exact absurd hs (hall id)
      | setUp => rfl
    obtain ⟨e', he'⟩ := Option.isSome_iff_exists.mp (owns_iff.mp howns)
    rw [h.complete id spec hget hsetUp slot e' he'] at he
    exact ⟨id, spec, hget, hsetUp, he' ▸ he⟩
  · rintro ⟨id, spec, hget, hsetUp, he⟩
    exact h.complete id spec hget hsetUp slot e he

/-- What an accepted tunnel has in common with the other known ones: nothing. -/
theorem apart_of_accepted {st : State} (h : Inv st) {spec : TunnelSpec}
    (hreadable : ∀ n ∈ spec.nets, (parseCidr n).isSome = true)
    (hno : st.agent.conflicts spec = none) (hkey : st.KeyIsFree spec) {id : Text}
    {other : TunnelSpec} (hget : st.agent.specs.get id = some other) (hid : id ≠ spec.id) :
    Apart other spec := by
  have hne : other.id ≠ spec.id := by rwa [h.keyed id other hget]
  have hclash : Agent.clash spec other = none := by
    unfold Agent.conflicts at hno
    split at hno
    · cases hno
    · exact List.findSome?_eq_none_iff.mp hno other (OrderedMap.mem_values_of_get hget)
  unfold Agent.clash at hclash
  rw [if_neg hne] at hclash
  split at hclash
  · cases hclash
  · rename_i hpeer
    split at hclash
    · cases hclash
    · rename_i hnets
      have hdisjoint : ∀ n ∈ other.nets, n ∉ spec.nets := by
        intro n hn hin
        apply hnets
        refine List.any_eq_true.mpr ⟨n, hn, List.any_eq_true.mpr ⟨n, hin, ?_⟩⟩
        obtain ⟨r, hr⟩ := Option.isSome_iff_exists.mp (hreadable n hin)
        simp [Agent.netsOverlap, hr]
      refine ⟨?_, hdisjoint⟩
      intro slot ho hs
      cases slot with
      | peer key =>
        obtain ⟨q, hother⟩ := owns_peer.mp ho
        obtain ⟨p, hspec⟩ := owns_peer.mp hs
        exact hkey id other hget hid key p q hspec hother
      | route n => exact hdisjoint n (owns_route.mp ho).2 (owns_route.mp hs).2
      | element set v =>
        cases set with
        | sitePeers => exact hpeer ((owns_sitePeer.mp ho).symm.trans (owns_sitePeer.mp hs))
        | siteNets => exact hdisjoint v (owns_siteNet.mp ho) (owns_siteNet.mp hs)
      | conf i => exact hne ((owns_conf.mp ho).2.symm.trans (owns_conf.mp hs).2)

end State

/-! ## What an apply does -/

theorem perform_confTasks (a : Agent) (s : Session) (spec : TunnelSpec) (slot : Slot) :
    (s.perform (a.confTasks s.runtime spec)).2.runtime slot =
      if isIpsec spec.tech = true ∧ slot = .conf spec.id then entriesOf a.serverIp spec slot
      else s.runtime slot := by
  unfold Agent.confTasks
  cases htech : spec.tech with
  | wireguard key psk => simp [Session.perform, isIpsec]
  | ipsec psk =>
    dsimp only [isIpsec]
    by_cases hold : s.runtime (.conf spec.id) =
        some (.file (renderSwanctl spec.id spec.peerIp psk spec.nets a.serverIp))
    · rw [if_neg (not_not.mpr hold), Session.perform]
      by_cases hslot : slot = .conf spec.id
      · subst hslot
        simp [entriesOf, htech, hold]
      · simp [hslot]
    · rw [if_pos hold]
      have hrun : ∀ t : Session, (t.perform [.require .loadAll]).2.runtime = t.runtime := by
        intro t
        by_cases hok : t.answer.code = 0 <;>
          simp [Session.perform, hok, Session.run, Command.effect]
      rw [Session.perform, hrun]
      by_cases hslot : slot = .conf spec.id
      · subst hslot
        simp [Session.setConf, entriesOf, htech]
      · simp [Session.setConf, hslot]

theorem store_spec (a : Agent) (spec : TunnelSpec) : (a.store spec).serverIp = a.serverIp ∧
    ∀ id, (a.store spec).specs.get id = if id = spec.id then some spec else a.specs.get id := by
  unfold Agent.store Agent.changed
  by_cases hsame : a.specs.get spec.id = some spec
  · simp only [hsame, ne_eq, not_true_eq_false, decide_false, Bool.false_eq_true, if_false,
      true_and]
    intro id
    by_cases hid : id = spec.id
    · rw [if_pos hid, hid, hsame]
    · rw [if_neg hid]
  · simp only [ne_eq, hsame, not_false_eq_true, decide_true, if_true, true_and]
    exact fun id => OrderedMap.get_set _ _ _ _

section ApplySpec

variable {a : Agent} {s : Session} {spec : TunnelSpec}

theorem applySpec_failed {e : Text}
    (h : (s.perform (applyTasks (a.specs.get spec.id) spec)).1 = some e) :
    (a.applySpec s spec).1 = .error (.spec e) ∧
      (a.applySpec s spec).2.2.runtime =
        (s.perform (applyTasks (a.specs.get spec.id) spec)).2.runtime := by
  unfold applyTasks at h ⊢
  rw [perform_append] at h ⊢
  unfold Agent.applySpec Agent.applyRuntime
  dsimp only
  cases hswitch : s.perform (switchTasks spec (a.specs.get spec.id)) with
  | mk r t =>
    rw [hswitch] at h
    cases r with
    | some e' =>
      cases h
      exact ⟨rfl, rfl⟩
    | none =>
      dsimp only at h ⊢
      cases hsetUp : t.perform (setUpTasks spec (sameTech spec (a.specs.get spec.id))) with
      | mk r u =>
        rw [hsetUp] at h
        cases r with
        | some e' => cases h; exact ⟨rfl, rfl⟩
        | none => cases h

theorem applySpec_done (h : (s.perform (applyTasks (a.specs.get spec.id) spec)).1 = none)
    (slot : Slot) : (a.applySpec s spec).2.2.runtime slot =
      if isIpsec spec.tech = true ∧ slot = .conf spec.id then entriesOf a.serverIp spec slot
      else (s.perform (applyTasks (a.specs.get spec.id) spec)).2.runtime slot := by
  unfold applyTasks at h ⊢
  rw [perform_append] at h ⊢
  unfold Agent.applySpec Agent.applyRuntime
  dsimp only
  cases hswitch : s.perform (switchTasks spec (a.specs.get spec.id)) with
  | mk r t =>
    rw [hswitch] at h
    cases r with
    | some e' => cases h
    | none =>
      dsimp only at h ⊢
      cases hsetUp : t.perform (setUpTasks spec (sameTech spec (a.specs.get spec.id))) with
      | mk r u =>
        rw [hsetUp] at h
        cases r with
        | some e' => cases h
        | none =>
          dsimp only
          have hconf := perform_confTasks (a.store spec) u spec slot
          rw [(store_spec a spec).1] at hconf
          rw [← hconf]
          split
          · rename_i hc
            rw [hc]
          · rename_i hc
            rw [hc]

/-- The agent knows the specification whatever becomes of the apply. -/
theorem applySpec_agent : (a.applySpec s spec).2.1.serverIp = a.serverIp ∧
    ∀ id, (a.applySpec s spec).2.1.specs.get id =
      if id = spec.id then some spec else a.specs.get id := by
  have hstore := store_spec a spec
  unfold Agent.applySpec Agent.applyRuntime
  dsimp only
  split
  · exact hstore
  · split
    · rename_i h
      split at h
      · cases h
      · cases h
        exact hstore
    · rename_i h
      split at h
      · cases h
        split
        · exact hstore
        · exact hstore
      · cases h

end ApplySpec

namespace State

/-! ## One operation -/

/-- What an operation on a tunnel leaves of the state. -/
structure Outcome (st st' : State) (spec : TunnelSpec) : Prop where
  serverIp : st'.agent.serverIp = st.agent.serverIp
  standing : ∀ id, id ≠ spec.id → st'.standing id = st.standing id
  outside : ∀ slot, ¬ Owns spec slot →
    (∀ p, st.agent.specs.get spec.id = some p → ¬ Owns p slot) → st'.runtime slot = st.runtime slot
  dropped : ∀ slot p, st.agent.specs.get spec.id = some p → Owns p slot → ¬ Owns spec slot →
    st'.runtime slot = none
  within : ∀ slot e, Owns spec slot → st'.runtime slot = some e → e.Within (netsAt spec slot)
  complete : st'.standing spec.id = .setUp → ∀ slot, Owns spec slot →
    st'.runtime slot = entriesOf st.agent.serverIp spec slot
  nothing : st'.standing spec.id = .nothing → ∀ slot, Owns spec slot → st'.runtime slot = none

section Step

variable {st st' : State} {spec : TunnelSpec}

/-- What stands at the places of a tunnel is its own. -/
theorem Inv.own (h : Inv st)
    (hapart : ∀ id other, st.agent.specs.get id = some other → id ≠ spec.id → Apart other spec)
    {slot : Slot} (hslot : Owns spec slot ∨ ∃ p, st.agent.specs.get spec.id = some p ∧ Owns p slot)
    {e : Entry} (he : st.runtime slot = some e) : st.standing spec.id ≠ .nothing ∧
      ∃ p, st.agent.specs.get spec.id = some p ∧ Owns p slot ∧ e.Within (netsAt p slot) := by
  obtain ⟨id, other, hget, hstanding, howns, hwithin⟩ := h.noResidue slot e he
  have hid : id = spec.id := by
    by_contra hne
    rcases hslot with hspec | ⟨p, hp, hpslot⟩
    · exact (hapart id other hget hne).slots slot howns hspec
    · exact (h.apart id spec.id other p hget hp hne).slots slot howns hpslot
  subst hid
  exact ⟨hstanding, other, hget, howns, hwithin⟩

/-- What stands elsewhere belongs to another tunnel. -/
theorem Inv.others (h : Inv st)
    (hapart : ∀ id other, st.agent.specs.get id = some other → id ≠ spec.id → Apart other spec)
    {slot : Slot} (hprev : ∀ p, st.agent.specs.get spec.id = some p → ¬ Owns p slot)
    {e : Entry} (he : st.runtime slot = some e) :
    ∃ own, e.Within own ∧ ∀ n ∈ own, n ∉ spec.nets := by
  obtain ⟨id, other, hget, _, howns, hwithin⟩ := h.noResidue slot e he
  have hid : id ≠ spec.id := by
    rintro rfl
    exact hprev other hget howns
  refine ⟨other.nets, hwithin.mono ?_, (hapart id other hget hid).nets⟩
  intro n hn
  cases slot with
  | peer key => exact hn
  | _ => cases hn

/-- The invariant holds behind an operation that leaves a tunnel known. -/
theorem Inv.known (h : Inv st) (hreadable : ∀ n ∈ spec.nets, (parseCidr n).isSome = true)
    (hapart : ∀ id other, st.agent.specs.get id = some other → id ≠ spec.id → Apart other spec)
    (hspecs : ∀ id, st'.agent.specs.get id =
      if id = spec.id then some spec else st.agent.specs.get id)
    (hout : Outcome st st' spec) : Inv st' where
  keyed := by
    intro id s hs
    rw [hspecs] at hs
    by_cases hid : id = spec.id
    · rw [if_pos hid] at hs
      cases hs
      exact hid.symm
    · rw [if_neg hid] at hs
      exact h.keyed id s hs
  readable := by
    intro id s hs
    rw [hspecs] at hs
    by_cases hid : id = spec.id
    · rw [if_pos hid] at hs
      cases hs
      exact hreadable
    · rw [if_neg hid] at hs
      exact h.readable id s hs
  apart := by
    intro i j s other hs ho hij
    rw [hspecs] at hs ho
    by_cases hi : i = spec.id
    · rw [if_pos hi] at hs
      cases hs
      rw [if_neg (fun hj => hij (hi.trans hj.symm))] at ho
      exact (hapart j other ho fun hj => hij (hi.trans hj.symm)).symm
    · rw [if_neg hi] at hs
      by_cases hj : j = spec.id
      · rw [if_pos hj] at ho
        cases ho
        exact hapart i s hs hi
      · rw [if_neg hj] at ho
        exact h.apart i j s other hs ho hij
  noResidue := by
    intro slot e he
    by_cases hspec : Owns spec slot
    · refine ⟨spec.id, spec, by rw [hspecs, if_pos rfl], ?_, hspec, hout.within slot e hspec he⟩
      intro hnothing
      rw [hout.nothing hnothing slot hspec] at he
      cases he
    · by_cases hprev : ∃ p, st.agent.specs.get spec.id = some p ∧ Owns p slot
      · obtain ⟨p, hp, hpslot⟩ := hprev
        rw [hout.dropped slot p hp hpslot hspec] at he
        cases he
      · rw [hout.outside slot hspec fun p hp ho => hprev ⟨p, hp, ho⟩] at he
        obtain ⟨id, other, hget, hstanding, howns, hwithin⟩ := h.noResidue slot e he
        have hid : id ≠ spec.id := by
          rintro rfl
          exact hprev ⟨other, hget, howns⟩
        refine ⟨id, other, ?_, ?_, howns, hwithin⟩
        · rw [hspecs, if_neg hid, hget]
        · rwa [hout.standing id hid]
  complete := by
    intro id s hs hstanding slot e he
    rw [hout.serverIp] at he
    rw [hspecs] at hs
    by_cases hid : id = spec.id
    · rw [if_pos hid] at hs
      cases hs
      rw [hid] at hstanding
      rw [hout.complete hstanding slot (owns_of_entry he), he]
    · rw [if_neg hid] at hs
      rw [hout.standing id hid] at hstanding
      have howns : Owns s slot := owns_of_entry he
      rw [hout.outside slot ((hapart id s hs hid).slots slot howns) fun p hp =>
        (h.apart id spec.id s p hs hp hid).slots slot howns]
      exact h.complete id s hs hstanding slot e he

/-- The invariant holds when a tunnel has been taken down and forgotten. -/
theorem Inv.forgotten (h : Inv st) (hget : st.agent.specs.get spec.id = some spec)
    (hspecs : ∀ id, st'.agent.specs.get id = if id = spec.id then none else st.agent.specs.get id)
    (hgone : ∀ slot, Owns spec slot → st'.runtime slot = none) (hout : Outcome st st' spec) :
    Inv st' where
  keyed := by
    intro id s hs
    rw [hspecs] at hs
    by_cases hid : id = spec.id
    · rw [if_pos hid] at hs
      cases hs
    · rw [if_neg hid] at hs
      exact h.keyed id s hs
  readable := by
    intro id s hs
    rw [hspecs] at hs
    by_cases hid : id = spec.id
    · rw [if_pos hid] at hs
      cases hs
    · rw [if_neg hid] at hs
      exact h.readable id s hs
  apart := by
    intro i j s other hs ho hij
    rw [hspecs] at hs ho
    by_cases hi : i = spec.id
    · rw [if_pos hi] at hs
      cases hs
    · by_cases hj : j = spec.id
      · rw [if_pos hj] at ho
        cases ho
      · rw [if_neg hi] at hs
        rw [if_neg hj] at ho
        exact h.apart i j s other hs ho hij
  noResidue := by
    intro slot e he
    have hnot : ¬ Owns spec slot := by
      intro howns
      rw [hgone slot howns] at he
      cases he
    have hprev : ∀ p, st.agent.specs.get spec.id = some p → ¬ Owns p slot := by
      intro p hp
      rw [hget] at hp
      cases hp
      exact hnot
    rw [hout.outside slot hnot hprev] at he
    obtain ⟨id, other, hother, hstanding, howns, hwithin⟩ := h.noResidue slot e he
    have hid : id ≠ spec.id := by
      rintro rfl
      exact hprev other hother howns
    refine ⟨id, other, ?_, ?_, howns, hwithin⟩
    · rw [hspecs, if_neg hid, hother]
    · rwa [hout.standing id hid]
  complete := by
    intro id s hs hstanding slot e he
    rw [hout.serverIp] at he
    rw [hspecs] at hs
    by_cases hid : id = spec.id
    · rw [if_pos hid] at hs
      cases hs
    · rw [if_neg hid] at hs
      rw [hout.standing id hid] at hstanding
      have howns : Owns s slot := owns_of_entry he
      have hapart := h.apart id spec.id s spec hs hget hid
      rw [hout.outside slot (hapart.slots slot howns) fun p hp =>
        (h.apart id spec.id s p hs hp hid).slots slot howns]
      exact h.complete id s hs hstanding slot e he

end Step

section Apply

variable {st : State} {answers : List RunResult} {raw : Value} {spec : TunnelSpec}

theorem of_accepted (h : st.accepted raw = some spec) :
    validateSpec raw = .ok spec ∧ st.agent.conflicts spec = none := by
  unfold accepted at h
  split at h
  · cases h
  · rename_i spec' hspec
    split at h
    · rename_i hno
      cases h
      exact ⟨hspec, hno⟩
    · cases h

theorem step_apply (h : st.accepted raw = some spec) : st.step answers (.apply raw) =
    ⟨(st.agent.applySpec (st.session answers) spec).2.1,
      (st.agent.applySpec (st.session answers) spec).2.2.runtime,
      Function.update st.standing spec.id (st.standingOfApply (st.session answers) spec
        (st.agent.applySpec (st.session answers) spec).1)⟩ := by
  obtain ⟨hspec, hno⟩ := of_accepted h
  simp only [step, Agent.apply, hspec, hno, h]

theorem step_apply_rejected (h : st.accepted raw = none) :
    st.step answers (.apply raw) = st := by
  unfold accepted at h
  cases hspec : validateSpec raw with
  | error e => simp [step, Agent.apply, accepted, hspec, session]
  | ok spec =>
    rw [hspec] at h
    cases hno : st.agent.conflicts spec with
    | none => simp [hno] at h
    | some e => simp [step, Agent.apply, accepted, hspec, hno, session]

/-- An apply that is harmless. -/
theorem outcome_apply (h : Inv st) (hacc : st.accepted raw = some spec)
    (hapart : ∀ id other, st.agent.specs.get id = some other → id ≠ spec.id → Apart other spec)
    (hop : st.Harmless answers (.apply raw)) :
    Outcome st (st.step answers (.apply raw)) spec := by
  obtain ⟨_, hclean, hlate⟩ := hop spec hacc
  rw [step_apply hacc]
  obtain ⟨before, rest, hp⟩ := performed_of_cleansUp hclean
  have hsub : ∀ t ∈ before, t ∈ applyTasks (st.agent.specs.get spec.id) spec :=
    fun t ht => hp.split ▸ List.mem_append_left _ ht
  -- at a place of the former or the new tunnel nothing stood, or the apply breaks off late
  have hrest : ∀ slot, (Owns spec slot ∨ ∃ p, st.agent.specs.get spec.id = some p ∧ Owns p slot) →
      st.runtime slot = none ∨ AllRequired rest := by
    intro slot hslot
    rcases hlate with hnothing | hlate
    · left
      cases he : st.runtime slot with
      | none => rfl
      | some e => exact absurd hnothing (h.own hapart hslot he).1
    · exact .inr (hp.late hlate)
  have hpoutside : ∀ slot, ¬ Owns spec slot →
      (∀ p, st.agent.specs.get spec.id = some p → ¬ Owns p slot) →
      after before st.runtime slot = st.runtime slot :=
    fun slot hspec hprev => after_outside hsub hspec hprev fun e he => h.others hapart hprev he
  have hpdropped : ∀ slot p, st.agent.specs.get spec.id = some p → Owns p slot →
      ¬ Owns spec slot → after before st.runtime slot = none := by
    intro slot p hget howns hspec
    have hsplit := hp.split
    rw [hget] at hsplit
    exact after_dropped (h.keyed _ p hget) hsplit howns hspec (hrest slot (.inr ⟨p, hget, howns⟩))
  have hpwithin : ∀ slot e, Owns spec slot → after before st.runtime slot = some e →
      e.Within (netsAt spec slot) := by
    intro slot e hspec he
    exact after_within_nets hp.split hspec (fun e he => (h.own hapart (.inl hspec) he).2)
      (hrest slot (.inl hspec)) he
  cases hend : ((st.session answers).perform (applyTasks (st.agent.specs.get spec.id) spec)).1 with
  | some e =>
    obtain ⟨herror, hruntime⟩ := applySpec_failed hend
    have hr : (st.agent.applySpec (st.session answers) spec).2.2.runtime =
        after before st.runtime := hruntime.trans hp.runtime
    rw [hr, herror]
    refine ⟨applySpec_agent.1, fun id hid => Function.update_of_ne hid _ _, hpoutside, hpdropped,
      hpwithin, ?_, ?_⟩
    · intro hstanding
      dsimp only at hstanding
      rw [Function.update_self] at hstanding
      simp only [standingOfApply] at hstanding
      split at hstanding <;> cases hstanding
    · intro hstanding slot hspec
      dsimp only at hstanding
      rw [Function.update_self] at hstanding
      simp only [standingOfApply] at hstanding
      split at hstanding
      · rename_i hstall
        apply after_stalled hsub (hp.stalled hstall.2)
        cases he : st.runtime slot with
        | none => rfl
        | some e => exact absurd hstall.1 (h.own hapart (.inl hspec) he).1
      · cases hstanding
  | none =>
    have hall : before = applyTasks (st.agent.specs.get spec.id) spec := by
      rw [hp.split, hp.all hend, List.append_nil]
    have hdone : ∀ slot, (st.agent.applySpec (st.session answers) spec).2.2.runtime slot =
        if isIpsec spec.tech = true ∧ slot = .conf spec.id then
          entriesOf st.agent.serverIp spec slot
        else after before st.runtime slot := by
      intro slot
      rw [applySpec_done hend, hp.runtime]
      rfl
    have hown : ∀ slot, Owns spec slot → (st.agent.applySpec (st.session answers) spec).2.2.runtime
        slot = entriesOf st.agent.serverIp spec slot := by
      intro slot hspec
      rw [hdone]
      by_cases hconf : isIpsec spec.tech = true ∧ slot = .conf spec.id
      · rw [if_pos hconf]
      · rw [if_neg hconf, hall]
        apply after_applyTasks _ hspec
        rintro id rfl
        obtain ⟨htech, rfl⟩ := owns_conf.mp hspec
        exact hconf ⟨htech, rfl⟩
    have hnotConf : ∀ slot, ¬ Owns spec slot → ¬ (isIpsec spec.tech = true ∧ slot = .conf spec.id) := by
      rintro slot hspec ⟨htech, rfl⟩
      exact hspec (owns_conf.mpr ⟨htech, rfl⟩)
    refine ⟨applySpec_agent.1, fun id hid => Function.update_of_ne hid _ _, ?_, ?_, ?_,
      fun _ => hown, ?_⟩
    · intro slot hspec hprev
      change (st.agent.applySpec (st.session answers) spec).2.2.runtime slot = _
      rw [hdone, if_neg (hnotConf slot hspec)]
      exact hpoutside slot hspec hprev
    · intro slot p hget howns hspec
      change (st.agent.applySpec (st.session answers) spec).2.2.runtime slot = _
      rw [hdone, if_neg (hnotConf slot hspec)]
      exact hpdropped slot p hget howns hspec
    · intro slot e hspec he
      exact within_entriesOf ((hown slot hspec).symm.trans he)
    · intro hstanding
      dsimp only at hstanding
      rw [Function.update_self] at hstanding
      unfold standingOfApply at hstanding
      split at hstanding
      · cases hstanding
      · split at hstanding
        · -- an apply that stalls does not come to its end
          rename_i hstall
          have hadd : Task.require (.addElements .siteNets spec.nets) ∈ before := by
            rw [hall]
            exact List.mem_append_right _ (mem_setUpTasks.mpr (.inr (.inr (.inr (.inr rfl)))))
          exact absurd (hp.stalled hstall.2 _ hadd) id
        · cases hstanding

end Apply

section Remove

variable {st : State} {answers : List RunResult} {rawId : Value} {spec : TunnelSpec}

theorem of_known (h : st.known rawId = some spec) :
    ∃ id, validateId rawId = .ok id ∧ st.agent.specs.get id = some spec := by
  unfold known at h
  split at h
  · cases h
  · rename_i id hid
    exact ⟨id, hid, h⟩

theorem step_remove_unknown (h : st.known rawId = none) : st.step answers (.remove rawId) = st := by
  unfold known at h
  cases hid : validateId rawId with
  | error e => simp [step, Agent.remove, known, hid, session]
  | ok id =>
    rw [hid] at h
    simp [step, Agent.remove, known, hid, session, h]

variable (answers) in
/-- What a remove leaves: the former agent when the tear-down breaks off, else one that has
forgotten the tunnel. -/
theorem step_remove (hinv : Inv st) (h : st.known rawId = some spec) :
    (st.step answers (.remove rawId)).runtime =
        ((st.session answers).perform (teardownTasks spec)).2.runtime ∧
      (st.step answers (.remove rawId)).agent.serverIp = st.agent.serverIp ∧
      (∀ id, id ≠ spec.id → (st.step answers (.remove rawId)).standing id = st.standing id) ∧
      ((((st.session answers).perform (teardownTasks spec)).1 = none ∧
          (st.step answers (.remove rawId)).standing spec.id = .nothing ∧
          ∀ id, (st.step answers (.remove rawId)).agent.specs.get id =
            if id = spec.id then none else st.agent.specs.get id) ∨
        ((st.step answers (.remove rawId)).standing spec.id =
            (if st.standing spec.id = .nothing then .nothing else .halfway) ∧
          ∀ id, (st.step answers (.remove rawId)).agent.specs.get id = st.agent.specs.get id)) := by
  obtain ⟨id, hid, hget⟩ := of_known h
  have hkey := hinv.keyed id spec hget
  subst hkey
  cases hp : (st.session answers).perform (teardownTasks spec) with
  | mk r s =>
    cases r with
    | some e =>
      simp only [step, Agent.remove, hid, hget, h, hp, standingOfRemove]
      refine ⟨trivial, trivial, fun id hne => Function.update_of_ne hne _ _, .inr ⟨?_, ?_⟩⟩
      · rw [Function.update_self]
      · exact fun _ => trivial
    | none =>
      simp only [step, Agent.remove, hid, hget, h, hp, standingOfRemove]
      refine ⟨trivial, trivial, fun id hne => Function.update_of_ne hne _ _, .inl ⟨trivial, ?_, ?_⟩⟩
      · rw [Function.update_self]
      · exact fun id => OrderedMap.get_erase _ _ _

theorem outcome_remove (h : Inv st) (hknown : st.known rawId = some spec)
    (hop : st.Harmless answers (.remove rawId)) :
    Outcome st (st.step answers (.remove rawId)) spec ∧
      (((st.session answers).perform (teardownTasks spec)).1 = none →
        ∀ slot, Owns spec slot → (st.step answers (.remove rawId)).runtime slot = none) := by
  obtain ⟨id, hid, hget⟩ := of_known hknown
  have hkey := h.keyed id spec hget
  subst hkey
  have hapart : ∀ id other, st.agent.specs.get id = some other → id ≠ spec.id → Apart other spec :=
    fun id other hother hne => h.apart id spec.id other spec hother hget hne
  obtain ⟨before, rest, hp⟩ := performed_of_cleansUp (hop spec hknown)
  have hsub : ∀ t ∈ before, t ∈ teardownTasks spec :=
    fun t ht => hp.split ▸ List.mem_append_left _ ht
  have hempty : ∀ slot, ∀ t ∈ before, ∀ v, t.writes slot = some v → v = none :=
    fun slot t ht v hv => (teardown_writes (hsub t ht) hv).1
  obtain ⟨hruntime, hip, hstanding, hcases⟩ := step_remove answers h hknown
  rw [hp.runtime] at hruntime
  have hwithout : ∀ slot, Unstolen before slot (st.runtime slot) := by
    intro slot e he t ht _
    rw [teardown_steals (hsub t ht)]
    obtain ⟨_, _, _, _, _, hwithin⟩ := h.noResidue slot e he
    exact Entry.without_eq hwithin fun n _ hn => by cases hn
  refine ⟨⟨hip, hstanding, ?_, ?_, ?_, ?_, ?_⟩, ?_⟩
  · intro slot hspec _
    rw [hruntime]
    apply after_of_unwritten _ (hwithout slot)
    intro t ht
    by_contra hne
    obtain ⟨w, hw⟩ := Option.ne_none_iff_exists'.mp hne
    exact hspec (teardown_writes (hsub t ht) hw).2
  · intro slot p hp' howns hspec
    rw [hget] at hp'
    cases hp'
    exact absurd howns hspec
  · intro slot e hspec he
    rw [hruntime] at he
    refine after_within (fun e he => ?_) (fun t ht e hw => ?_) he
    · obtain ⟨_, p, hp', _, hwithin⟩ := h.own hapart (.inl hspec) he
      rw [hget] at hp'
      cases hp'
      exact hwithin
    · cases hempty slot t ht _ hw
  · intro hs
    rcases hcases with ⟨_, hnothing, _⟩ | ⟨hother, _⟩
    · rw [hnothing] at hs
      cases hs
    · rw [hother] at hs
      split at hs <;> cases hs
  · intro hs slot hspec
    rw [hruntime]
    rcases hcases with ⟨hend, _, _⟩ | ⟨hother, _⟩
    · obtain ⟨t, ht, _, hw⟩ := teardown_cleansUp hspec
      rw [hp.split, hp.all hend, List.append_nil] at ht
      exact after_of_written _ (hempty slot) (fun e he => by cases he) ⟨t, ht, by rw [hw]; rfl⟩
    · apply after_of_empty _ (hempty slot)
      cases he : st.runtime slot with
      | none => exact he
      | some e =>
        have hne := (h.own hapart (.inl hspec) he).1
        rw [hother, if_neg hne] at hs
        cases hs
  · intro hend slot hspec
    rw [hruntime]
    obtain ⟨t, ht, _, hw⟩ := teardown_cleansUp hspec
    rw [hp.split, hp.all hend, List.append_nil] at ht
    exact after_of_written _ (hempty slot) (fun e he => by cases he) ⟨t, ht, by rw [hw]; rfl⟩

end Remove

/-! ## All runs -/

theorem Inv.step {st : State} {answers : List RunResult} {op : Op} (h : Inv st)
    (hop : st.Harmless answers op) : Inv (st.step answers op) ∧ st.LeavesOthers answers op := by
  cases op with
  | apply raw =>
    cases hacc : st.accepted raw with
    | none =>
      rw [LeavesOthers, step_apply_rejected hacc]
      exact ⟨h, fun _ _ _ _ _ _ => rfl⟩
    | some spec =>
      obtain ⟨hspec, hno⟩ := of_accepted hacc
      have hreadable := (validateSpec_nets hspec).2
      have hapart : ∀ id other, st.agent.specs.get id = some other → id ≠ spec.id →
          Apart other spec :=
        fun id other hget hid => apart_of_accepted h hreadable hno (hop spec hacc).1 hget hid
      have hout := outcome_apply h hacc hapart hop
      have hspecs : ∀ id, (st.step answers (.apply raw)).agent.specs.get id =
          if id = spec.id then some spec else st.agent.specs.get id := by
        rw [step_apply hacc]
        exact applySpec_agent.2
      refine ⟨h.known hreadable hapart hspecs hout, ?_⟩
      intro id other hget hne slot howns
      have hid : id ≠ spec.id := by
        rintro rfl
        exact hne (by rw [subject, hacc]; rfl)
      exact hout.outside slot ((hapart id other hget hid).slots slot howns) fun p hp =>
        (h.apart id spec.id other p hget hp hid).slots slot howns
  | remove rawId =>
    cases hknown : st.known rawId with
    | none =>
      rw [LeavesOthers, step_remove_unknown hknown]
      exact ⟨h, fun _ _ _ _ _ _ => rfl⟩
    | some spec =>
      obtain ⟨hout, hgone⟩ := outcome_remove h hknown hop
      obtain ⟨id, _, hget⟩ := of_known hknown
      have hkey := h.keyed id spec hget
      subst hkey
      refine ⟨?_, ?_⟩
      · obtain ⟨_, _, _, ⟨hend, _, hspecs⟩ | ⟨_, hspecs⟩⟩ := step_remove answers h hknown
        · exact h.forgotten hget hspecs (hgone hend) hout
        · refine h.known (h.readable _ spec hget)
            (fun i other hother hne => h.apart i spec.id other spec hother hget hne) ?_ hout
          intro i
          rw [hspecs]
          by_cases hi : i = spec.id
          · rw [if_pos hi, hi, hget]
          · rw [if_neg hi]
      · intro i other hother hne slot howns
        have hi : i ≠ spec.id := by
          rintro rfl
          exact hne (by rw [subject, hknown]; rfl)
        exact hout.outside slot ((h.apart i spec.id other spec hother hget hi).slots slot howns)
          fun p hp => (h.apart i spec.id other p hother hp hi).slots slot howns

theorem inv_reached {st : State} (h : Reached st) : Inv st := by
  induction h with
  | fresh a => exact inv_fresh a
  | step _ hop ih => exact (ih.step hop).1

/-- In every run in which each operation fails harmlessly, if it fails, the managed state has no
entry but those of known tunnels, and all entries of those whose last apply succeeded. While no
tunnel is left halfway it holds exactly these, and no operation changes an entry of another
tunnel. -/
theorem no_residue {st : State} (h : Reached st) : st.NoResidue ∧ st.Complete ∧
    ((∀ id, st.standing id ≠ .halfway) → st.Exact) ∧
    ∀ answers op, st.Harmless answers op → st.LeavesOthers answers op := by
  have hinv := inv_reached h
  refine ⟨?_, hinv.complete, hinv.exact, fun answers op hop => (hinv.step hop).2⟩
  intro slot e he
  obtain ⟨id, spec, hget, hstanding, howns, _⟩ := hinv.noResidue slot e he
  exact ⟨id, spec, hget, hstanding, howns⟩

/-! ## A residue -/

/-- The specification of a WireGuard tunnel. -/
def wireguardSpec (nets : List String) : Value := .obj (named [
  ("id", .text "00000000-0000-4000-8000-000000000001"), ("tech", .text "wireguard"),
  ("peerIp", .text "9.9.9.9"), ("nets", .arr (nets.map .text)),
  ("publicKey", .str (List.replicate 43 (ch 'A') ++ js "=")),
  ("presharedKey", .str (List.replicate 43 (ch 'A') ++ js "="))])

def freshAgent : State := fresh (Agent.create (js "8.8.8.8") [] none)

/-- A tunnel is applied with one network, then with another, which fails at its first command,
and then it is applied again. -/
def changedAgain : State :=
  ((freshAgent.step [] (.apply (wireguardSpec ["192.168.1.0/24"]))).step
    [⟨1, [], js "no peer"⟩] (.apply (wireguardSpec ["192.168.2.0/24"]))).step
    [] (.apply (wireguardSpec ["192.168.2.0/24"]))

/-- The last apply succeeds, and the former network is still in the firewall. -/
theorem former_network_stays : changedAgain.standing (js "00000000-0000-4000-8000-000000000001") =
      .setUp ∧
    changedAgain.runtime (.element .siteNets (js "192.168.1.0/24")) = some .present ∧
    changedAgain.runtime (.route (js "192.168.1.0/24")) = some .present ∧
    ¬ changedAgain.NoResidue := by
  have hall : changedAgain.standing (js "00000000-0000-4000-8000-000000000001") = .setUp ∧
      changedAgain.runtime (.element .siteNets (js "192.168.1.0/24")) = some .present ∧
      changedAgain.runtime (.route (js "192.168.1.0/24")) = some .present ∧
      (changedAgain.agent.specs.values.map (·.nets)) = [[js "192.168.2.0/24"]] := by
    decide +kernel
  obtain ⟨hstanding, hnet, hroute, hnets⟩ := hall
  refine ⟨hstanding, hnet, hroute, ?_⟩
  intro h
  obtain ⟨id, spec, hget, _, howns⟩ := h _ _ hnet
  have hin : spec.nets ∈ changedAgain.agent.specs.values.map (·.nets) :=
    List.mem_map_of_mem (OrderedMap.mem_values_of_get hget)
  rw [hnets, List.mem_singleton] at hin
  have hmem := owns_siteNet.mp howns
  rw [hin] at hmem
  exact absurd hmem (by decide)

/-- Without a failing command every apply is harmless for the first tunnel. -/
theorem no_residue_sample :
    (freshAgent.step [] (.apply (wireguardSpec ["192.168.1.0/24"]))).NoResidue := by
  have hcleans : ∀ (ts : List Task) (s : Session), s.answers = [] → CleansUp s ts := by
    intro ts
    induction ts with
    | nil => exact fun _ _ => trivial
    | cons t ts ih =>
      intro s hs
      cases t with
      | attempt c => exact ⟨.inl (by rw [Session.answer, hs]; rfl), ih _ (by simp [Session.run, hs])⟩
      | require c => exact fun _ => ih _ (by simp [Session.run, hs])
      | file id text => exact ih _ hs
  refine (no_residue (.step (.fresh _) ?_)).1
  intro spec _
  exact ⟨fun _ _ h => (by cases h), hcleans _ _ rfl, .inl rfl⟩

end State

end Klick.SiteTunnels
