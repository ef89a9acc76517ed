-- Who may release a payout, and when, under a policy and under one that
-- tightens it. Alone, one person with enough keys releases after a delay; with
-- four eyes, two persons release at once. So the two modes do not compare.
import Klick.SignerState
import Klick.Tightening

open Js

namespace Klick

/-- The state under another policy. -/
def SignerState.under (s : SignerState) (p : Policy) : SignerState := { s with policy := some p }

/-- The payout waits for its approval. -/
structure AwaitsApproval (rec : IntentRecord) : Prop where
  payout : rec.intent.kind = .payout
  open_ : rec.approvedAt = none

/-- Nobody releases under `next` who could not under `prev`, and nothing is signable earlier. -/
structure NeverLooser (prev next : Policy) : Prop where
  approvals : ∀ approvals activeKeys, approvalsSatisfied next approvals activeKeys = true →
    approvalsSatisfied prev approvals activeKeys = true
  signable : ∀ (s : SignerState) rec time, AwaitsApproval rec → quorum (s.under prev) rec = true →
    quorum (s.under next) rec = true → ∃ before after,
      (settle (s.under prev) rec time).signableAt = some before ∧
      (settle (s.under next) rec time).signableAt = some after ∧ before ≤ after

/-- Two approvals of different persons. -/
def TwoPersons (approvals : List Approval) : Prop :=
  ∃ a ∈ approvals, ∃ b ∈ approvals, a.personId ≠ b.personId

theorem settle_signableAt {s : SignerState} {p : Policy} {rec : IntentRecord} {time : ℤ}
    (h : AwaitsApproval rec) (hq : quorum (s.under p) rec = true) :
    (settle (s.under p) rec time).signableAt = some (plus time (signDelay p)) := by
  unfold settle
  rw [h.open_, show (s.under p).policy = some p from rfl]
  simp only [if_pos hq, h.payout]

theorem signDelay_mono {prev next : Policy} (h : Tighter prev next) (hm : prev.mode = next.mode) :
    signDelay prev ≤ signDelay next := by
  unfold signDelay
  rw [← hm]
  cases prev.mode with
  | solo => exact h.soloDelaySec
  | fourEyes => exact le_rfl

theorem approvalsSatisfied_mono {prev next : Policy} (h : Tighter prev next)
    (hm : prev.mode = next.mode) {approvals : List Approval} {activeKeys : Text → ℕ}
    (ha : approvalsSatisfied next approvals activeKeys = true) :
    approvalsSatisfied prev approvals activeKeys = true := by
  unfold approvalsSatisfied at ha ⊢
  rw [← hm] at ha
  cases hp : prev.mode with
  | fourEyes => rwa [hp] at ha
  | solo =>
    rw [hp] at ha
    simp only [List.any_eq_true, decide_eq_true_eq] at ha ⊢
    obtain ⟨person, hperson, hkeys⟩ := ha
    exact ⟨person, hperson, h.soloMinKeys.trans hkeys⟩

theorem twoPersons_of_fourEyes {p : Policy} (hp : p.mode = .fourEyes) {approvals : List Approval}
    {activeKeys : Text → ℕ} (h : approvalsSatisfied p approvals activeKeys = true) :
    TwoPersons approvals := by
  unfold approvalsSatisfied at h
  rw [hp] at h
  simp only [decide_eq_true_eq] at h
  have hd := List.nodup_dedup (approvals.map (·.personId))
  obtain ⟨x, y, rest, hl⟩ : ∃ x y rest, (approvals.map (·.personId)).dedup = x :: y :: rest := by
    rcases hl : (approvals.map (·.personId)).dedup with _ | ⟨x, _ | ⟨y, rest⟩⟩
    · simp [hl] at h
    · simp [hl] at h
    · exact ⟨x, y, rest, hl⟩
  rw [hl] at hd
  have hx : x ∈ approvals.map (·.personId) := List.mem_dedup.mp (by rw [hl]; simp)
  have hy : y ∈ approvals.map (·.personId) := List.mem_dedup.mp (by rw [hl]; simp)
  obtain ⟨a, ha, rfl⟩ := List.mem_map.mp hx
  obtain ⟨b, hb, rfl⟩ := List.mem_map.mp hy
  refine ⟨a, ha, b, hb, ?_⟩
  intro he
  rw [he] at hd
  simp at hd

/-- Two persons without an active key. -/
def twoKeyless : List Approval := [⟨js "a", js "k"⟩, ⟨js "b", js "l"⟩]

theorem soloMinKeys_pos (p : Policy) : 1 ≤ p.soloMinKeys := by
  obtain ⟨z, hz, hle⟩ := p.integers.soloMinKeys
  rw [Policy.soloMinKeys, int_of_get hz]
  exact hle

/-- Two persons release with four eyes, and none of them alone. -/
theorem twoKeyless_separates {prev next : Policy} (hp : prev.mode = .solo)
    (hn : next.mode = .fourEyes) : approvalsSatisfied next twoKeyless (fun _ => 0) = true ∧
      approvalsSatisfied prev twoKeyless (fun _ => 0) = false := by
  have hpos := soloMinKeys_pos prev
  unfold approvalsSatisfied
  rw [hp, hn]
  constructor
  · have htwo : 2 ≤ (twoKeyless.map (·.personId)).dedup.length := by decide
    simpa using htwo
  · simp only [List.any_eq_false, decide_eq_true_eq, not_le]
    intro person _
    push_cast
    omega

/-- A tighter policy releases nothing more and nothing earlier exactly when it
keeps the mode; the only other mode is that of four eyes after that of one
person, and then two persons must approve. -/
theorem tightening_never_loosens_iff {prev next : Policy}
    (h : isTightening prev.raw next.raw = .ok true) :
    (NeverLooser prev next ↔ prev.mode = next.mode) ∧
    (prev.mode ≠ next.mode → prev.mode = .solo ∧ next.mode = .fourEyes ∧
      ∀ approvals activeKeys, approvalsSatisfied next approvals activeKeys = true →
        TwoPersons approvals) := by
  have ht := tighter_of_isTightening h
  have hmodes : prev.mode ≠ next.mode → prev.mode = .solo ∧ next.mode = .fourEyes := by
    intro hne
    have hmode := ht.mode
    cases hp : prev.mode <;> cases hn : next.mode <;> simp_all
  refine ⟨⟨?_, ?_⟩, ?_⟩
  · intro hl
    by_contra hne
    obtain ⟨hp, hn⟩ := hmodes hne
    obtain ⟨h1, h2⟩ := twoKeyless_separates hp hn
    rw [hl.approvals _ _ h1] at h2
    cases h2
  · intro hm
    refine ⟨fun _ _ => approvalsSatisfied_mono ht hm, ?_⟩
    intro s rec time hopen hq1 hq2
    exact ⟨_, _, settle_signableAt hopen hq1, settle_signableAt hopen hq2,
      plus_mono time (signDelay_mono ht hm)⟩
  · intro hne
    obtain ⟨hp, hn⟩ := hmodes hne
    exact ⟨hp, hn, fun _ _ => twoPersons_of_fourEyes hn⟩

def cappedFourEyes : Policy := ⟨cappedRaw "four_eyes" (.int 50), by decide +kernel, by decide +kernel⟩

theorem solo_to_fourEyes_tightens : isTightening cappedBy50.raw cappedFourEyes.raw = .ok true := by
  decide +kernel

/-- Under the tighter policy two persons release without a key that is active. -/
theorem fourEyes_releases_what_solo_does_not :
    isTightening cappedBy50.raw cappedFourEyes.raw = .ok true ∧
    approvalsSatisfied cappedFourEyes twoKeyless (fun _ => 0) = true ∧
    approvalsSatisfied cappedBy50 twoKeyless (fun _ => 0) = false ∧
    signDelay cappedFourEyes < signDelay cappedBy50 := by
  refine ⟨solo_to_fourEyes_tightens, ?_, ?_, ?_⟩
  · decide +kernel
  · decide +kernel
  · decide +kernel

/-- A lower fee cap leaves the release as it is. -/
theorem lower_cap_never_loosens : NeverLooser cappedBy50 cappedBy40 := by
  have h : isTightening cappedBy50.raw cappedBy40.raw = .ok true := by decide +kernel
  exact (tightening_never_loosens_iff h).1.mpr (by decide +kernel)

end Klick
