-- A change of the rules against the loss of data that is not reported as relaxed: what it
-- keeps of the decisions on files, and when it keeps the limit on downloads.
import Klick.DlpPolicy
import Klick.EgressRuns

open Js KeyedCalls SlidingWindow

namespace Klick.Dlp

/-! ## Decisions on files -/

/-- At least as strict in what is done and in the classification. -/
structure DlpDecision.AtLeast (d e : DlpDecision) : Prop where
  action : e.action.rank ≤ d.action.rank
  classification : e.classification.rank ≤ d.classification.rank

/-- No rule milder, and no higher threshold. -/
structure NoMilder (before after : DlpPolicy) : Prop where
  rule : ∀ k, (before.rule k).rank ≤ (after.rule k).rank
  piiThreshold : after.piiThreshold ≤ before.piiThreshold

theorem noMilder_of_unreported {before after : DlpPolicy} (h : dlpRelaxed before after = []) :
    NoMilder before after := by
  unfold dlpRelaxed at h
  simp only [List.append_eq_nil_iff, List.map_eq_nil_iff, List.filter_eq_nil_iff,
    decide_eq_true_eq, not_lt] at h
  obtain ⟨⟨hrules, hpii⟩, -⟩ := h
  constructor
  · intro k
    cases k
    case info => exact le_rfl
    all_goals exact hrules _ (by decide)
  · by_contra hlt
    rw [if_pos (by omega)] at hpii
    cases hpii

theorem rank_eq_zero {r : RuleAction} : r.rank = 0 ↔ r = .allow := by cases r <;> decide

theorem action_rank (a b : RuleAction) :
    (if a.rank < b.rank then b else a).rank = max a.rank b.rank := by
  split_ifs <;> omega

theorem classification_rank (a b : Classification) :
    (if a.rank < b.rank then b else a).rank = max a.rank b.rank := by
  split_ifs <;> omega

theorem weigh_mono {before after : DlpPolicy} (h : NoMilder before after) {w w' : Weighing}
    (f : Finding) (haction : w.action.rank ≤ w'.action.rank)
    (hclass : w.classification.rank ≤ w'.classification.rank) :
    (weigh before w f).action.rank ≤ (weigh after w' f).action.rank ∧
      (weigh before w f).classification.rank ≤ (weigh after w' f).classification.rank := by
  have hrule := h.rule f.category
  have hpii := h.piiThreshold
  unfold weigh
  by_cases hinfo : f.category = .info
  · simp only [if_pos hinfo]
    exact ⟨haction, hclass⟩
  simp only [if_neg hinfo]
  by_cases hafter : f.category = .pii ∧ f.count < after.piiThreshold
  · -- too few under the lower threshold are too few under the higher one
    have hbefore : f.category = .pii ∧ f.count < before.piiThreshold := ⟨hafter.1, by omega⟩
    simp only [if_pos hafter, if_pos hbefore]
    exact ⟨haction, hclass⟩
  simp only [if_neg hafter]
  by_cases hallow : after.rule f.category = .allow
  · have hbefore : before.rule f.category = .allow := by
      rw [← rank_eq_zero] at hallow ⊢
      omega
    simp only [if_pos hallow, if_pos hbefore, ite_self]
    exact ⟨haction, hclass⟩
  simp only [if_neg hallow, action_rank, classification_rank]
  by_cases hbefore : f.category = .pii ∧ f.count < before.piiThreshold
  · simp only [if_pos hbefore]
    exact ⟨haction.trans (le_max_left _ _), hclass.trans (le_max_left _ _)⟩
  simp only [if_neg hbefore]
  by_cases hallow' : before.rule f.category = .allow
  · simp only [if_pos hallow']
    exact ⟨haction.trans (le_max_left _ _), hclass.trans (le_max_left _ _)⟩
  · simp only [if_neg hallow', action_rank, classification_rank]
    exact ⟨max_le_max haction hrule, max_le_max hclass le_rfl⟩

theorem evaluateDlp_mono {before after : DlpPolicy} (h : NoMilder before after)
    (findings : List Finding) (declared : Classification) :
    (evaluateDlp findings after declared).AtLeast (evaluateDlp findings before declared) := by
  have hfold : ∀ w w' : Weighing, w.action.rank ≤ w'.action.rank →
      w.classification.rank ≤ w'.classification.rank →
      (findings.foldl (weigh before) w).action.rank ≤
          (findings.foldl (weigh after) w').action.rank ∧
        (findings.foldl (weigh before) w).classification.rank ≤
          (findings.foldl (weigh after) w').classification.rank := by
    induction findings with
    | nil => exact fun w w' ha hc => ⟨ha, hc⟩
    | cons f fs ih =>
      intro w w' ha hc
      obtain ⟨ha', hc'⟩ := weigh_mono h f ha hc
      exact ih _ _ ha' hc'
  obtain ⟨ha, hc⟩ := hfold ⟨.allow, declared, []⟩ ⟨.allow, declared, []⟩ le_rfl le_rfl
  exact ⟨ha, hc⟩

/-! ## Downloads -/

/-- Every download of a person at these times is let through. -/
def AdmitsAll (policy : DlpPolicy) (orgId userId : Text) (times : List ℤ) : Prop :=
  ∀ d ∈ decisions (fun m now => egressGuard m policy orgId userId now) .new times,
    d.allowed = true

theorem admitsAll_iff {policy : DlpPolicy} (h : policy.Valid) (orgId userId : Text)
    {times : List ℤ} (hsorted : times.Pairwise (· ≤ ·)) :
    AdmitsAll policy orgId userId times ↔
      Within policy.egressLimit (policy.egressWindowMinutes * 60000) times := by
  obtain ⟨hlimit, -⟩ := h.egressLimit
  obtain ⟨hwindow, -⟩ := h.egressWindowMinutes
  have hone := (Egress.independent (κ := Text) (fun _ => policy.egressLimit)
    (fun _ => policy.egressWindowMinutes * 60000)).decisions_eq (m := .new) (s := ⟨[], none⟩)
    (k := orgId ++ ch ':' :: userId) (fun m now _ => ⟨fun _ _ _ _ h => h, fun _ _ h => h⟩)
    (fun _ _ => .refl _ _ _) hsorted
  have hiff := (Egress.counts (fun _ : Text => policy.egressLimit)
    (fun _ => policy.egressWindowMinutes * 60000)).all_allowed_iff (s := ⟨[], none⟩)
    (k := orgId ++ ch ':' :: userId) (by omega) (by omega) rfl hsorted
  unfold AdmitsAll
  rw [← hiff, ← hone]
  rfl

/-- **A change that is not reported as relaxed relaxes no decision on a file; it relaxes no
limit on downloads exactly if as many of the new windows as the new limit fits into the old one
cover the old window.** -/
theorem unreported_change {before after : DlpPolicy} (hbefore : before.Valid) (hafter : after.Valid)
    (h : dlpRelaxed before after = []) (orgId userId : Text) :
    (∀ findings declared,
      (evaluateDlp findings after declared).AtLeast (evaluateDlp findings before declared)) ∧
    ((∀ times : List ℤ, times.Pairwise (· ≤ ·) → AdmitsAll after orgId userId times →
      AdmitsAll before orgId userId times) ↔
      before.egressWindowMinutes ≤
        before.egressLimit / after.egressLimit * after.egressWindowMinutes) := by
  refine ⟨fun findings declared => evaluateDlp_mono (noMilder_of_unreported h) findings declared,
    ?_⟩
  have hlimit := hbefore.egressLimit.1
  have hlimit' := hafter.egressLimit.1
  have hwindow' := hafter.egressWindowMinutes.1
  have hiff : (∀ times : List ℤ, times.Pairwise (· ≤ ·) →
      Within after.egressLimit (after.egressWindowMinutes * 60000) times →
      Within before.egressLimit (before.egressWindowMinutes * 60000) times) ↔
      before.egressWindowMinutes * 60000 ≤
        before.egressLimit / after.egressLimit * (after.egressWindowMinutes * 60000) :=
    within_imp_iff (by omega) (by omega) (by omega)
  have hscale : before.egressWindowMinutes * 60000 ≤
      before.egressLimit / after.egressLimit * (after.egressWindowMinutes * 60000) ↔
      before.egressWindowMinutes ≤
        before.egressLimit / after.egressLimit * after.egressWindowMinutes := by
    rw [← mul_assoc]
    exact mul_le_mul_iff_left₀ (by norm_num)
  rw [← hscale, ← hiff]
  constructor
  · intro hall times hsorted hwithin
    exact (admitsAll_iff hbefore orgId userId hsorted).mp
      (hall times hsorted ((admitsAll_iff hafter orgId userId hsorted).mpr hwithin))
  · intro hall times hsorted hadmits
    exact (admitsAll_iff hbefore orgId userId hsorted).mpr
      (hall times hsorted ((admitsAll_iff hafter orgId userId hsorted).mp hadmits))

/-- Six downloads in six minutes, or five in five: as many a minute, and fewer at a time. -/
def sixInSix : DlpPolicy := ⟨.block, .raise, .raise, .raise, .raise, 50, 6, 6⟩

def fiveInFive : DlpPolicy := { sixInSix with egressLimit := 5, egressWindowMinutes := 5 }

theorem rate_sixInSix : sixInSix.rate = fiveInFive.rate := by
  norm_num [DlpPolicy.rate, sixInSix, fiveInFive]

theorem fiveInFive_unreported : dlpRelaxed sixInSix fiveInFive = [] := by
  unfold dlpRelaxed
  rw [rate_sixInSix]
  simp only [lt_irrefl, or_false]
  decide

theorem unreported_change_sample :
    (∀ findings declared, (evaluateDlp findings { sixInSix with egressLimit := 5 } declared).AtLeast
      (evaluateDlp findings sixInSix declared)) ∧
    ((∀ times : List ℤ, times.Pairwise (· ≤ ·) →
      AdmitsAll { sixInSix with egressLimit := 5 } (js "o1") (js "u1") times →
      AdmitsAll sixInSix (js "o1") (js "u1") times) ↔ (6 : ℤ) ≤ 6 / 5 * 6) := by
  have hrate : ¬ sixInSix.rate < { sixInSix with egressLimit := 5 }.rate := by
    apply not_lt.mpr
    exact fl_mono (by norm_num [sixInSix])
  apply unreported_change ⟨by decide, by decide, by decide, by decide⟩
    ⟨by decide, by decide, by decide, by decide⟩
  unfold dlpRelaxed
  simp only [hrate, or_false]
  decide

/-- Five downloads and two more five minutes later are let through after the change alone. -/
theorem unreported_change_relaxes :
    sixInSix.Valid ∧ fiveInFive.Valid ∧ dlpRelaxed sixInSix fiveInFive = [] ∧
      AdmitsAll fiveInFive (js "o1") (js "u1") [0, 0, 0, 0, 0, 300000, 300000] ∧
      ¬ AdmitsAll sixInSix (js "o1") (js "u1") [0, 0, 0, 0, 0, 300000, 300000] := by
  refine ⟨⟨by decide, by decide, by decide, by decide⟩, ⟨by decide, by decide, by decide,
    by decide⟩, fiveInFive_unreported, ?_, ?_⟩
  · unfold AdmitsAll
    decide
  · unfold AdmitsAll
    decide

end Klick.Dlp
