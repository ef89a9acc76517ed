-- Runs of requests, decisions, cancellations, redemptions and jobs in one
-- organisation (`lib/security-changes/service.ts`). The row of a request is locked
-- from the check to the end of a transaction; the setting that an application
-- compares is not, so another transaction can write it in between.
import Klick.OrderedMap
import Klick.SecurityChanges

open Js

namespace Klick.SecurityChanges

/-! ## The world -/

/-- A look at the deciders. -/
structure Reading where
  candidates : List Candidate
  time : ℤ

def Reading.deciders (r : Reading) : List Text := eligibleDeciders r.candidates r.time

/-- What has happened to a request. An application has the row as it was before, and the settings
into which the new value is written. -/
inductive Deed
  | requested (who : Text) (now : ℤ) (look : Reading)
  | decided (who : Text) (now : ℤ) (look : Reading) (approve : Bool)
  | applied (c : SecurityChange) (settings : Settings) (now : ℤ)
  | redeemed (c : SecurityChange) (who : Text) (now : ℤ)
  | cancelled (who : Text) (now : ℤ)
  | lapsed (now : ℤ)

/-- A request that has seen no open one of its kind and is not inserted yet. -/
structure Draft where
  change : NewChange
  now : ℤ

/-- An application between its reading and its writing: on whose decision, if not the job's. -/
structure Applying where
  now : ℤ
  write : Write
  second : Option (Text × Reading × Option Text)

structure World where
  changes : OrderedMap Text SecurityChange
  people : People
  settings : Settings
  clock : ℤ
  drafts : List Draft
  applying : Text → Option Applying
  log : List (Text × Deed)

namespace World

def look (w : World) : Reading := ⟨candidates w.people w.changes.values, w.clock⟩

/-- What has happened to one request. -/
def history (w : World) (id : Text) : List Deed := (w.log.filter (·.1 = id)).map (·.2)

/-- A new row of a request, and what happened to it. -/
def setRow (w : World) (id : Text) (c : SecurityChange) (ds : List Deed) : World :=
  { w with changes := w.changes.set id c, log := w.log ++ ds.map (id, ·) }

def setApplying (w : World) (id : Text) (a : Option Applying) : World :=
  { w with applying := Function.update w.applying id a }

/-- The row that an application leaves, and what happened to it. -/
def appliedRow (c : SecurityChange) (a : Applying) : SecurityChange :=
  match a.second with
  | some (who, _, note) => c.decided who note a.now .applied
  | none => c.handled a.now .applied

def appliedDeeds (w : World) (c : SecurityChange) (a : Applying) : List Deed :=
  match a.second with
  | some (who, look, _) => [.decided who a.now look true, .applied c w.settings a.now]
  | none => [.applied c w.settings a.now]

/-- An application writes the setting and the row. -/
def finished (w : World) (id : Text) (c : SecurityChange) (a : Applying) : World :=
  (({ w with settings := w.settings.put a.write } : World).setRow id (appliedRow c a)
    (w.appliedDeeds c a)).setApplying id none

end World

/-! ## Steps -/

section Steps

variable (readIdpMetadata : Text → ℤ → Option IdpMetadata) (credentialOf : Value → Option Text)

/-- The setting that a step writes, and the request for which it does. -/
abbrev Label := Option (Target × Option Text)

/-- One step of anybody. An operation has read its clock at some time before, and asks for the
deciders now; a row is only touched while no other transaction has it locked. -/
inductive Step (w : World) : Label → World → Prop
  /-- Time passes. -/
  | tick (t : ℤ) (ht : w.clock ≤ t) : Step w none { w with clock := t }
  /-- People join and leave, are appointed and made owners. -/
  | people (p : People) : Step w none { w with people := p }
  /-- Another transaction writes a setting. -/
  | save (write : Write) :
    Step w (some (write.target, none)) { w with settings := w.settings.put write }
  | facts (verified : Bool) (credentials : List Text) :
    Step w none { w with settings := { w.settings with verified, credentials } }
  /-- `requestApplyChange` and `checkPermit`: no request of the kind is open. -/
  | draft (n : NewChange) (now : ℤ) (hnow : now ≤ w.clock)
    (hopen : openOfKind w.changes.values n.kind n.targetKey now = []) :
    Step w none { w with drafts := ⟨n, now⟩ :: w.drafts }
  /-- `insertChange` -/
  | insert (d : Draft) (rest : List Draft) (id : Text) (hd : w.drafts.Perm (d :: rest))
    (hid : w.changes.get id = none) :
    Step w none (({ w with drafts := rest } : World).setRow id
      (inserted d.change id w.look.deciders d.now)
      [.requested d.change.requestedBy d.now w.look])
  /-- `decideSecurityChange`: a no, a yes to a permit, a yes to a change that does not apply any
  more, and the reading of one that does. -/
  | reject (id who : Text) (c : SecurityChange) (note : Option Text) (now : ℤ) (hnow : now ≤ w.clock)
    (hget : w.changes.get id = some c) (hlock : w.applying id = none)
    (hcan : canDecideChange c who w.look.deciders now = none) :
    Step w none (w.setRow id (c.decided who note now .rejected) [.decided who now w.look false])
  | permit (id who : Text) (c : SecurityChange) (note : Option Text) (now : ℤ) (hnow : now ≤ w.clock)
    (hget : w.changes.get id = some c) (hlock : w.applying id = none)
    (hcan : canDecideChange c who w.look.deciders now = none) (hkind : isApplyKind c.kind = false) :
    Step w none (w.setRow id (c.decided who note now .approved) [.decided who now w.look true])
  | stale (id who : Text) (c : SecurityChange) (note : Option Text) (now : ℤ) (hnow : now ≤ w.clock)
    (hget : w.changes.get id = some c) (hlock : w.applying id = none)
    (hcan : canDecideChange c who w.look.deciders now = none) (hkind : isApplyKind c.kind = true)
    (code : String)
    (happly : applyChange readIdpMetadata credentialOf c w.settings w.clock =
      .error (.fourEyes code)) :
    Step w none (w.setRow id (c.decided who note now .expired) [.lapsed now])
  | approve (id who : Text) (c : SecurityChange) (note : Option Text) (now : ℤ)
    (hnow : now ≤ w.clock) (hget : w.changes.get id = some c) (hlock : w.applying id = none)
    (hcan : canDecideChange c who w.look.deciders now = none) (hkind : isApplyKind c.kind = true)
    (write : Write)
    (happly : applyChange readIdpMetadata credentialOf c w.settings w.clock = .ok write) :
    Step w none (w.setApplying id (some ⟨now, write, some (who, w.look, note)⟩))
  /-- `cancelSecurityChange` -/
  | cancel (id who : Text) (c : SecurityChange) (now : ℤ) (hnow : now ≤ w.clock)
    (hget : w.changes.get id = some c) (hlock : w.applying id = none)
    (hcan : canCancelChange c who w.look.deciders now = none) :
    Step w none (w.setRow id (c.cancelledRow who now) [.cancelled who now])
  /-- `redeemPermit` -/
  | redeem (id who : Text) (c : SecurityChange) (now : ℤ) (hnow : now ≤ w.clock)
    (hget : w.changes.get id = some c) (hlock : w.applying id = none)
    (hwho : c.requestedBy = some who) (hstate : changeState c now = .permitted) :
    Step w none (w.setRow id (c.redeemedRow now) [.redeemed c who now])
  /-- `applyDueChanges`, for each of its rows: a change that does not apply any more, and the
  reading of one that does. -/
  | lapse (id : Text) (c : SecurityChange) (now : ℤ) (hnow : now ≤ w.clock)
    (hget : w.changes.get id = some c) (hlock : w.applying id = none)
    (hstate : changeState c now = .due) (code : String)
    (happly : applyChange readIdpMetadata credentialOf c w.settings w.clock =
      .error (.fourEyes code)) :
    Step w none (w.setRow id (c.handled now .expired) [.lapsed now])
  | run (id : Text) (c : SecurityChange) (now : ℤ) (hnow : now ≤ w.clock)
    (hget : w.changes.get id = some c) (hlock : w.applying id = none)
    (hstate : changeState c now = .due) (write : Write)
    (happly : applyChange readIdpMetadata credentialOf c w.settings w.clock = .ok write) :
    Step w none (w.setApplying id (some ⟨now, write, none⟩))
  /-- An application writes, or its transaction is undone. -/
  | finish (id : Text) (c : SecurityChange) (a : Applying) (hget : w.changes.get id = some c)
    (ha : w.applying id = some a) :
    Step w (some (a.write.target, some id)) (w.finished id c a)
  | undo (id : Text) : Step w none (w.setApplying id none)

/-- Nothing has been requested yet. -/
def World.Fresh (w : World) : Prop :=
  w.changes = .empty ∧ w.drafts = [] ∧ w.log = [] ∧ ∀ id, w.applying id = none

/-- The worlds of all runs whose steps a condition lets pass. -/
inductive Reached (allowed : World → Label → Prop) : World → Prop
  | fresh {w : World} (h : w.Fresh) : Reached allowed w
  | step {w w' : World} {l : Label} (h : Reached allowed w)
      (hs : Step readIdpMetadata credentialOf w l w') (hl : allowed w l) : Reached allowed w'

end Steps

/-- No setting is written that an application of another request has read and not written yet. -/
def Undisturbed (w : World) (l : Label) : Prop :=
  ∀ t from', l = some (t, from') → ∀ id a, w.applying id = some a → a.write.target = t →
    from' = some id

/-! ## What four eyes are -/

/-- A candidate who has been one for long enough. -/
def Reading.Eligible (r : Reading) (who : Text) : Prop :=
  ∃ c ∈ r.candidates, c.userId = who ∧ deciderTenureMs ≤ r.time - c.since

theorem Reading.mem_deciders {r : Reading} {who : Text} : who ∈ r.deciders ↔ r.Eligible who :=
  mem_eligibleDeciders

/-- What four eyes ask of the history of a request. -/
structure FourEyes (hs : List Deed) : Prop where
  /-- A change is applied after the approval of a second person, or after the waiting time that
  nobody cancelled, when nobody else could decide. -/
  second : ∀ c s t, .applied c s t ∈ hs →
    (∃ who now look second now' look', .requested who now look ∈ hs ∧
      .decided second now' look' true ∈ hs ∧ second ≠ who ∧ look'.Eligible second) ∨
    ∃ who now look, .requested who now look ∈ hs ∧ (∀ d, look.Eligible d → d = who) ∧
      now + waitMs ≤ t ∧ ∀ u t', .cancelled u t' ∉ hs
  /-- A permit is redeemed once, by the one who asked for it, while it is permitted. -/
  once : (hs.filter fun d => d matches .redeemed ..).length ≤ 1
  own : ∀ c u t, .redeemed c u t ∈ hs →
    (∃ now look, .requested u now look ∈ hs) ∧ changeState c t = .permitted
  /-- What takes effect is neither rejected nor cancelled nor expired. -/
  live : ∀ c s t, .applied c s t ∈ hs → changeState c t = .pending ∨ changeState c t = .due
  final : (∃ d ∈ hs, (d matches .applied .. ) = true ∨ (d matches .redeemed ..) = true) →
    (∀ u t r, .decided u t r false ∉ hs) ∧ (∀ u t, .cancelled u t ∉ hs) ∧ ∀ t, .lapsed t ∉ hs

/-! ## The story of a request -/

/-- A second person has approved. -/
def Approval (who : Text) (d : Deed) : Prop :=
  ∃ second now look, d = .decided second now look true ∧ second ≠ who ∧ look.Eligible second

/-- Nothing has happened since the request, or a second person has approved. -/
def Before (who : Text) (ds : List Deed) : Prop := ds = [] ∨ ∃ d, Approval who d ∧ ds = [d]

/-- What can have happened since a request, by the status of its row. -/
def Since (c : SecurityChange) (who : Text) (look : Reading) (ds : List Deed) : Prop :=
  match c.status with
  | .pending => ds = []
  | .waiting => ds = [] ∧ (∀ d, look.Eligible d → d = who) ∧
      c.applyAfter = some (c.requestedAt + waitMs)
  | .approved => ∃ d, Approval who d ∧ ds = [d]
  | .applied =>
    (∃ d b s t, Approval who d ∧ ds = [d, .applied b s t] ∧ changeState b t = .pending) ∨
    (∃ b s t, ds = [.applied b s t] ∧ (∀ d, look.Eligible d → d = who) ∧
      c.requestedAt + waitMs ≤ t ∧ changeState b t = .due) ∨
    (∃ before b t, Before who before ∧ ds = before ++ [.redeemed b who t] ∧
      changeState b t = .permitted)
  | .rejected => ∃ u t r, ds = [.decided u t r false]
  | .cancelled => ∃ before u t, Before who before ∧ ds = before ++ [.cancelled u t]
  | .expired => ∃ t, ds = [.lapsed t]

/-- The history of a request is as its row says. -/
def Story (c : SecurityChange) (hs : List Deed) : Prop :=
  ∃ who look ds, c.requestedBy = some who ∧ hs = .requested who c.requestedAt look :: ds ∧
    Since c who look ds

theorem Before.mem {who : Text} {ds : List Deed} (h : Before who ds) {d : Deed} (hd : d ∈ ds) :
    Approval who d := by
  rcases h with rfl | ⟨d', hd', rfl⟩
  · cases hd
  · rw [List.mem_singleton.mp hd]
    exact hd'

/-- A deed that is a request or an approval. -/
def Deed.IsEarly : Deed → Prop
  | .requested .. => True
  | .decided _ _ _ approve => approve = true
  | _ => False

theorem Before.early {who : Text} {ds : List Deed} (h : Before who ds) : ∀ d ∈ ds, d.IsEarly := by
  intro d hd
  obtain ⟨second, now, look, rfl, _⟩ := h.mem hd
  rfl

/-- A history of early deeds and one last deed. -/
theorem fourEyes_of_last {hs : List Deed} (early : List Deed) {last : Deed}
    (hsplit : hs = early ++ [last])
    (hearly : ∀ d ∈ early, d.IsEarly)
    (happlied : ∀ c s t, last = .applied c s t →
      (changeState c t = .pending ∨ changeState c t = .due) ∧
      ((∃ who now look second now' look', .requested who now look ∈ early ∧
        .decided second now' look' true ∈ early ∧ second ≠ who ∧ look'.Eligible second) ∨
      ∃ who now look, .requested who now look ∈ early ∧ (∀ d, look.Eligible d → d = who) ∧
        now + waitMs ≤ t))
    (hredeemed : ∀ c u t, last = .redeemed c u t →
      (∃ now look, .requested u now look ∈ early) ∧ changeState c t = .permitted) :
    FourEyes hs := by
  subst hsplit
  have hmem : ∀ d, d ∈ early ++ [last] → d ∈ early ∨ d = last := by
    intro d hd
    simpa using hd
  -- a deed that is not early is the last one
  have hlast : ∀ d, d ∈ early ++ [last] → ¬ d.IsEarly → d = last := by
    intro d hd hnot
    rcases hmem d hd with h | h
    · exact absurd (hearly d h) hnot
    · exact h
  refine ⟨?_, ?_, ?_, ?_, ?_⟩
  · intro c s t hd
    have heq := hlast _ hd id
    rcases (happlied c s t heq.symm).2 with
      ⟨who, now, look, second, now', look', hreq, hdec, hne, hel⟩ | ⟨who, now, look, hreq, halone, ht⟩
    · exact .inl ⟨who, now, look, second, now', look', List.mem_append_left _ hreq,
        List.mem_append_left _ hdec, hne, hel⟩
    · refine .inr ⟨who, now, look, List.mem_append_left _ hreq, halone, ht, ?_⟩
      intro u t' hcan
      have := hlast _ hcan id
      rw [← heq] at this
      cases this
  · rw [List.filter_append, List.length_append]
    have hnone : early.filter (fun d => d matches .redeemed ..) = [] := by
      apply List.filter_eq_nil_iff.mpr
      intro d hd
      have := hearly d hd
      cases d with
      | redeemed c u t => cases this
      | _ => simp
    rw [hnone, List.length_nil, Nat.zero_add]
    exact (List.length_filter_le _ _).trans (le_refl 1)
  · intro c u t hd
    obtain ⟨⟨now, look, hreq⟩, hstate⟩ := hredeemed c u t (hlast _ hd id).symm
    exact ⟨⟨now, look, List.mem_append_left _ hreq⟩, hstate⟩
  · intro c s t hd
    exact (happlied c s t (hlast _ hd id).symm).1
  · rintro ⟨d, hd, heffect⟩
    have hdlast : d = last := by
      apply hlast d hd
      intro hearlyd
      cases d with
      | requested a b e => simp at heffect
      | decided a b e f => simp at heffect
      | _ => cases hearlyd
    subst hdlast
    refine ⟨?_, ?_, ?_⟩
    · intro u t r hx
      have := hlast _ hx Bool.false_ne_true
      subst this
      simp at heffect
    · intro u t hx
      have := hlast _ hx id
      subst this
      simp at heffect
    · intro t hx
      have := hlast _ hx id
      subst this
      simp at heffect

/-- A history in which nothing has taken effect. -/
theorem fourEyes_of_early {hs : List Deed} (h : ∀ d ∈ hs, d.IsEarly) : FourEyes hs := by
  refine ⟨fun c s t hd => (h _ hd).elim, ?_, fun c u t hd => (h _ hd).elim,
    fun c s t hd => (h _ hd).elim, ?_⟩
  · have hnone : hs.filter (fun d => d matches .redeemed ..) = [] := by
      apply List.filter_eq_nil_iff.mpr
      intro d hd
      have := h d hd
      cases d with
      | redeemed c u t => cases this
      | _ => simp
    rw [hnone]
    exact Nat.zero_le 1
  · rintro ⟨d, hd, heffect⟩
    have := h d hd
    cases d with
    | requested a b e => simp at heffect
    | decided a b e f => simp at heffect
    | _ => cases this

/-- Every story has four eyes. -/
theorem Story.fourEyes {c : SecurityChange} {hs : List Deed} (h : Story c hs) : FourEyes hs := by
  obtain ⟨who, look, ds, _, rfl, hsince⟩ := h
  have hreq : Deed.IsEarly (.requested who c.requestedAt look) := trivial
  unfold Since at hsince
  have hcons : ∀ {ds}, Before who ds → ∀ d ∈ .requested who c.requestedAt look :: ds, d.IsEarly := by
    intro ds hb d hd
    rcases List.mem_cons.mp hd with rfl | hd
    · exact hreq
    · exact hb.early d hd
  split at hsince
  · subst hsince
    exact fourEyes_of_early (hcons (.inl rfl))
  · rw [hsince.1]
    exact fourEyes_of_early (hcons (.inl rfl))
  · obtain ⟨d, hd, rfl⟩ := hsince
    exact fourEyes_of_early (hcons (.inr ⟨d, hd, rfl⟩))
  · rcases hsince with ⟨d, b, s, t, hd, rfl, hstate⟩ | ⟨b, s, t, rfl, halone, ht, hstate⟩ |
      ⟨before, b, t, hb, rfl, hstate⟩
    · refine fourEyes_of_last [.requested who c.requestedAt look, d] rfl
        (hcons (.inr ⟨d, hd, rfl⟩)) ?_ (fun _ _ _ h => by cases h)
      intro c' s' t' heq
      cases heq
      obtain ⟨second, now, look', rfl, hne, hel⟩ := hd
      exact ⟨.inl hstate, .inl ⟨who, _, look, second, now, look', List.mem_cons_self,
        List.mem_cons_of_mem _ List.mem_cons_self, hne, hel⟩⟩
    · refine fourEyes_of_last [.requested who c.requestedAt look] rfl
        (hcons (.inl rfl)) ?_ (fun _ _ _ h => by cases h)
      intro c' s' t' heq
      cases heq
      exact ⟨.inr hstate, .inr ⟨who, _, look, List.mem_cons_self, halone, ht⟩⟩
    · refine fourEyes_of_last (.requested who c.requestedAt look :: before)
        (by rw [List.cons_append]) (hcons hb) (fun _ _ _ h => by cases h) ?_
      intro c' u' t' heq
      cases heq
      exact ⟨⟨_, look, List.mem_cons_self⟩, hstate⟩
  · obtain ⟨u, t, r, rfl⟩ := hsince
    exact fourEyes_of_last [.requested who c.requestedAt look] rfl (hcons (.inl rfl))
      (fun _ _ _ h => by cases h) (fun _ _ _ h => by cases h)
  · obtain ⟨before, u, t, hb, rfl⟩ := hsince
    exact fourEyes_of_last (.requested who c.requestedAt look :: before)
      (by rw [List.cons_append]) (hcons hb) (fun _ _ _ h => by cases h) (fun _ _ _ h => by cases h)
  · obtain ⟨t, rfl⟩ := hsince
    exact fourEyes_of_last [.requested who c.requestedAt look] rfl (hcons (.inl rfl))
      (fun _ _ _ h => by cases h) (fun _ _ _ h => by cases h)

/-! ## The story goes on -/

/-- A story goes on with what happens to its row. -/
theorem Story.append {c c' : SecurityChange} {hs new : List Deed} (h : Story c hs)
    (hby : c'.requestedBy = c.requestedBy) (hat : c'.requestedAt = c.requestedAt)
    (hsince : ∀ who look ds, c.requestedBy = some who → Since c who look ds →
      Since c' who look (ds ++ new)) : Story c' (hs ++ new) := by
  obtain ⟨who, look, ds, hwho, rfl, hs⟩ := h
  refine ⟨who, look, ds ++ new, by rw [hby, hwho], ?_, hsince who look ds hwho hs⟩
  rw [hat, List.cons_append]

theorem since_pending {c : SecurityChange} {who : Text} {look : Reading} {ds : List Deed}
    (h : Since c who look ds) (hs : c.status = .pending) : ds = [] := by
  unfold Since at h
  rwa [hs] at h

theorem since_waiting {c : SecurityChange} {who : Text} {look : Reading} {ds : List Deed}
    (h : Since c who look ds) (hs : c.status = .waiting) :
    ds = [] ∧ (∀ d, look.Eligible d → d = who) ∧ c.applyAfter = some (c.requestedAt + waitMs) := by
  unfold Since at h
  rwa [hs] at h

/-- An open request: nothing has happened to it, or a second person has approved it. -/
theorem before_of_open {c : SecurityChange} {who : Text} {look : Reading} {ds : List Deed}
    (h : Since c who look ds)
    (hs : c.status = .pending ∨ c.status = .waiting ∨ c.status = .approved) : Before who ds := by
  unfold Since at h
  rcases hs with hs | hs | hs
  · rw [hs] at h
    exact .inl h
  · rw [hs] at h
    exact .inl h.1
  · rw [hs] at h
    exact .inr h

theorem story_inserted (n : NewChange) (id : Text) (look : Reading) (now : ℤ) :
    Story (inserted n id look.deciders now) [.requested n.requestedBy now look] := by
  refine ⟨n.requestedBy, look, [], rfl, rfl, ?_⟩
  unfold Since inserted changeRoute
  by_cases ho : others look.deciders n.requestedBy = []
  · rw [if_neg (not_not.mpr ho)]
    refine ⟨rfl, ?_, rfl⟩
    intro d hd
    exact others_eq_nil_iff.mp ho d (Reading.mem_deciders.2 hd)
  · rw [if_pos ho]

theorem story_rejected {c : SecurityChange} {hs : List Deed} (h : Story c hs) {who : Text}
    {deciders : List Text} {now : ℤ} (look : Reading) (note : Option Text)
    (hcan : canDecideChange c who deciders now = none) :
    Story (c.decided who note now .rejected) (hs ++ [.decided who now look false]) := by
  have hs := status_of_pending (canDecideChange_none hcan).1
  refine h.append rfl rfl fun u l ds _ hsince => ?_
  rw [since_pending hsince hs]
  exact ⟨who, now, look, rfl⟩

/-- The one who may decide is a second person. -/
theorem approval_of_can {c : SecurityChange} {who u : Text} {look : Reading} {now : ℤ}
    (hcan : canDecideChange c who look.deciders now = none) (hu : c.requestedBy = some u) :
    Approval u (.decided who now look true) := by
  obtain ⟨_, hne, hmem⟩ := canDecideChange_none hcan
  refine ⟨who, now, look, rfl, ?_, Reading.mem_deciders.1 hmem⟩
  rintro rfl
  exact hne hu

theorem story_permit {c : SecurityChange} {hs : List Deed} (h : Story c hs) {who : Text}
    {look : Reading} {now : ℤ} (note : Option Text)
    (hcan : canDecideChange c who look.deciders now = none) :
    Story (c.decided who note now .approved) (hs ++ [.decided who now look true]) := by
  have hs := status_of_pending (canDecideChange_none hcan).1
  refine h.append rfl rfl fun u l ds hu hsince => ?_
  rw [since_pending hsince hs]
  exact ⟨_, approval_of_can hcan hu, rfl⟩

theorem story_lapsed {c c' : SecurityChange} {hs : List Deed} (h : Story c hs) (now : ℤ)
    (hopen : c.status = .pending ∨ c.status = .waiting) (hby : c'.requestedBy = c.requestedBy)
    (hat : c'.requestedAt = c.requestedAt) (hc' : c'.status = .expired) :
    Story c' (hs ++ [.lapsed now]) := by
  refine h.append hby hat fun u l ds _ hsince => ?_
  have hnil : ds = [] := by
    rcases hopen with hs | hs
    · exact since_pending hsince hs
    · exact (since_waiting hsince hs).1
  subst hnil
  unfold Since
  rw [hc']
  exact ⟨now, rfl⟩

theorem story_cancelled {c : SecurityChange} {hs : List Deed} (h : Story c hs) {who : Text}
    {deciders : List Text} {now : ℤ} (hcan : canCancelChange c who deciders now = none) :
    Story (c.cancelledRow who now) (hs ++ [.cancelled who now]) := by
  have hopen : isOpen c now = true := by
    unfold canCancelChange at hcan
    split at hcan
    · cases hcan
    · rename_i ho
      simpa using ho
  refine h.append rfl rfl fun u l ds _ hsince => ?_
  exact ⟨ds, who, now, before_of_open hsince (status_of_open hopen), rfl⟩

theorem story_redeemed {c : SecurityChange} {hs : List Deed} (h : Story c hs) {who : Text} {now : ℤ}
    (hwho : c.requestedBy = some who) (hstate : changeState c now = .permitted) :
    Story (c.redeemedRow now) (hs ++ [.redeemed c who now]) := by
  refine h.append rfl rfl fun u l ds hu hsince => ?_
  rw [hwho] at hu
  cases hu
  exact .inr (.inr ⟨ds, c, now, before_of_open hsince (.inr (status_of_permitted hstate)), rfl,
    hstate⟩)

/-- What an application has checked before it reads the setting. -/
def Checked (c : SecurityChange) (a : Applying) : Prop :=
  match a.second with
  | some (who, look, _) =>
    changeState c a.now = .pending ∧ c.requestedBy ≠ some who ∧ look.Eligible who
  | none => changeState c a.now = .due

theorem story_applied {c : SecurityChange} {hs : List Deed} (h : Story c hs) (w : World)
    {a : Applying} (ha : Checked c a) :
    Story (World.appliedRow c a) (hs ++ w.appliedDeeds c a) := by
  obtain ⟨now, write, second⟩ := a
  cases second with
  | some s =>
    obtain ⟨who, look, note⟩ := s
    obtain ⟨hstate, hne, hel⟩ := ha
    refine h.append rfl rfl fun u l ds hu hsince => ?_
    rw [since_pending hsince (status_of_pending hstate)]
    refine .inl ⟨_, c, w.settings, now, ⟨who, now, look, rfl, ?_, hel⟩, rfl, hstate⟩
    rintro rfl
    exact hne hu
  | none =>
    have hdue : changeState c now = .due := ha
    obtain ⟨hstatus, _, hafter⟩ := status_of_due hdue
    refine h.append rfl rfl fun u l ds hu hsince => ?_
    obtain ⟨rfl, halone, happlyAfter⟩ := since_waiting hsince hstatus
    exact .inr (.inl ⟨c, w.settings, now, rfl, halone, hafter _ happlyAfter, hdue⟩)

/-! ## The invariant -/

namespace World

@[simp] theorem get_setRow (w : World) (id j : Text) (c : SecurityChange) (ds : List Deed) :
    (w.setRow id c ds).changes.get j = if j = id then some c else w.changes.get j :=
  OrderedMap.get_set _ _ _ _

theorem history_setRow (w : World) (id j : Text) (c : SecurityChange) (ds : List Deed) :
    (w.setRow id c ds).history j = w.history j ++ if j = id then ds else [] := by
  unfold history setRow
  rw [List.filter_append, List.map_append]
  congr 1
  by_cases hj : j = id
  · subst hj
    rw [if_pos rfl, List.filter_eq_self.mpr (by simp)]
    simp
  · rw [if_neg hj, List.filter_eq_nil_iff.mpr (by simpa using fun _ _ => Ne.symm hj)]
    rfl

structure Inv (w : World) : Prop where
  story : ∀ id c, w.changes.get id = some c → Story c (w.history id)
  unknown : ∀ id, w.changes.get id = none → w.history id = []
  applying : ∀ id a, w.applying id = some a → ∃ c, w.changes.get id = some c ∧ Checked c a

theorem Inv.setRow {w : World} (h : Inv w) {id : Text} {c : SecurityChange} {ds : List Deed}
    (hlock : w.applying id = none) (hstory : Story c (w.history id ++ ds)) :
    Inv (w.setRow id c ds) where
  story := by
    intro j c' hget
    rw [get_setRow] at hget
    rw [history_setRow]
    by_cases hj : j = id
    · rw [if_pos hj] at hget ⊢
      cases hget
      rw [hj]
      exact hstory
    · rw [if_neg hj] at hget ⊢
      rw [List.append_nil]
      exact h.story j c' hget
  unknown := by
    intro j hget
    rw [get_setRow] at hget
    rw [history_setRow]
    by_cases hj : j = id
    · rw [if_pos hj] at hget
      cases hget
    · rw [if_neg hj] at hget ⊢
      rw [List.append_nil]
      exact h.unknown j hget
  applying := by
    intro j a ha
    have hj : j ≠ id := by
      rintro rfl
      change w.applying j = some a at ha
      rw [hlock] at ha
      cases ha
    obtain ⟨c', hget, hchecked⟩ := h.applying j a ha
    exact ⟨c', by rw [get_setRow, if_neg hj, hget], hchecked⟩

theorem Inv.setApplying {w : World} (h : Inv w) {id : Text} {a : Option Applying}
    (ha : ∀ b, a = some b → ∃ c, w.changes.get id = some c ∧ Checked c b) :
    Inv (w.setApplying id a) where
  story := h.story
  unknown := h.unknown
  applying := by
    intro j b hb
    by_cases hj : j = id
    · subst hj
      have hsame : (w.setApplying j a).applying j = a := Function.update_self _ _ _
      rw [hsame] at hb
      exact ha b hb
    · have hother : (w.setApplying id a).applying j = w.applying j := Function.update_of_ne hj _ _
      rw [hother] at hb
      exact h.applying j b hb

theorem Inv.finished {w : World} (h : Inv w) {id : Text} {c : SecurityChange} {a : Applying}
    (hget : w.changes.get id = some c) (ha : w.applying id = some a) : Inv (w.finished id c a) := by
  obtain ⟨c', hget', hchecked⟩ := h.applying id a ha
  rw [hget] at hget'
  cases hget'
  -- the lock is held up to the end
  have hrest : Inv (({ w with settings := w.settings.put a.write } : World).setApplying id none) :=
    Inv.setApplying (w := { w with settings := w.settings.put a.write })
      ⟨h.story, h.unknown, h.applying⟩ (fun b hb => by cases hb)
  have hlock : (({ w with settings := w.settings.put a.write } : World).setApplying id none).applying
      id = none := Function.update_self _ _ _
  exact hrest.setRow hlock (story_applied (h.story id c hget) w hchecked)

theorem inv_fresh {w : World} (h : w.Fresh) : Inv w := by
  obtain ⟨hc, _, hl, ha⟩ := h
  refine ⟨?_, ?_, ?_⟩
  · intro id c hget
    rw [hc] at hget
    cases hget
  · intro id _
    unfold history
    rw [hl]
    rfl
  · intro id a hget
    rw [ha] at hget
    cases hget

end World

section Runs

variable {readIdpMetadata : Text → ℤ → Option IdpMetadata} {credentialOf : Value → Option Text}
  {allowed : World → Label → Prop}

theorem World.inv_step {w w' : World} {l : Label} (h : World.Inv w)
    (hs : Step readIdpMetadata credentialOf w l w') : World.Inv w' := by
  cases hs with
  | tick t ht => exact ⟨h.story, h.unknown, h.applying⟩
  | people p => exact ⟨h.story, h.unknown, h.applying⟩
  | save write => exact ⟨h.story, h.unknown, h.applying⟩
  | facts verified credentials => exact ⟨h.story, h.unknown, h.applying⟩
  | draft n now hnow hopen => exact ⟨h.story, h.unknown, h.applying⟩
  | insert d rest id hd hid =>
    have hlock : w.applying id = none := by
      cases ha : w.applying id with
      | none => rfl
      | some a =>
        obtain ⟨c, hget, _⟩ := h.applying id a ha
        rw [hid] at hget
        cases hget
    refine World.Inv.setRow (w := { w with drafts := rest }) ⟨h.story, h.unknown, h.applying⟩ hlock ?_
    have hnil : ({ w with drafts := rest } : World).history id = [] := h.unknown id hid
    rw [hnil]
    exact story_inserted d.change id w.look d.now
  | reject id who c note now hnow hget hlock hcan =>
    exact h.setRow hlock (story_rejected (h.story id c hget) _ note hcan)
  | permit id who c note now hnow hget hlock hcan hkind =>
    exact h.setRow hlock (story_permit (h.story id c hget) note hcan)
  | stale id who c note now hnow hget hlock hcan hkind code happly =>
    exact h.setRow hlock (story_lapsed (h.story id c hget) now
      (.inl (status_of_pending (canDecideChange_none hcan).1)) rfl rfl rfl)
  | approve id who c note now hnow hget hlock hcan hkind write happly =>
    refine h.setApplying fun b hb => ?_
    cases hb
    obtain ⟨hstate, hne, hmem⟩ := canDecideChange_none hcan
    exact ⟨c, hget, hstate, hne, Reading.mem_deciders.1 hmem⟩
  | cancel id who c now hnow hget hlock hcan =>
    exact h.setRow hlock (story_cancelled (h.story id c hget) hcan)
  | redeem id who c now hnow hget hlock hwho hstate =>
    exact h.setRow hlock (story_redeemed (h.story id c hget) hwho hstate)
  | lapse id c now hnow hget hlock hstate code happly =>
    exact h.setRow hlock (story_lapsed (h.story id c hget) now
      (.inr (status_of_due hstate).1) rfl rfl rfl)
  | run id c now hnow hget hlock hstate write happly =>
    refine h.setApplying fun b hb => ?_
    cases hb
    exact ⟨c, hget, hstate⟩
  | finish id c a hget ha => exact h.finished hget ha
  | undo id => exact h.setApplying fun b hb => by cases hb

theorem World.inv_reached {w : World} (h : Reached readIdpMetadata credentialOf allowed w) :
    World.Inv w := by
  induction h with
  | fresh h => exact World.inv_fresh h
  | step _ hs _ ih => exact World.inv_step ih hs

/-- Every request of every run has four eyes, whatever its steps disturb. -/
theorem World.fourEyes {w : World} (h : Reached readIdpMetadata credentialOf allowed w) (id : Text) :
    FourEyes (w.history id) := by
  have hinv := World.inv_reached h
  cases hget : w.changes.get id with
  | none =>
    rw [hinv.unknown id hget]
    exact fourEyes_of_early fun d hd => by cases hd
  | some c => exact (hinv.story id c hget).fourEyes

/-! ## The setting that was recorded -/

/-- What is being applied, and what has been applied, is what the request recorded. -/
structure World.Kept (w : World) : Prop where
  applying : ∀ id a c, w.applying id = some a → w.changes.get id = some c →
    StillRecorded c w.settings ∧ a.write.target = targetOf c
  applied : ∀ id c s t, (id, Deed.applied c s t) ∈ w.log → StillRecorded c s

theorem World.Kept.setRow {w : World} (h : w.Kept) {id : Text} {c : SecurityChange}
    {ds : List Deed} (hlock : w.applying id = none)
    (hds : ∀ b s t, .applied b s t ∈ ds → StillRecorded b s) : (w.setRow id c ds).Kept where
  applying := by
    intro j a b ha hget
    have hj : j ≠ id := by
      rintro rfl
      change w.applying j = some a at ha
      rw [hlock] at ha
      cases ha
    rw [World.get_setRow, if_neg hj] at hget
    exact h.applying j a b ha hget
  applied := by
    intro j b s t hmem
    rcases List.mem_append.mp hmem with hmem | hmem
    · exact h.applied j b s t hmem
    · obtain ⟨d, hd, heq⟩ := List.mem_map.mp hmem
      cases heq
      exact hds b s t hd

theorem World.Kept.put {w : World} (h : w.Kept) (write : Write)
    (hfree : ∀ id a, w.applying id = some a → a.write.target ≠ write.target) :
    World.Kept { w with settings := w.settings.put write } where
  applying := by
    intro id a c ha hget
    obtain ⟨hkept, htarget⟩ := h.applying id a c ha hget
    refine ⟨hkept.put ?_, htarget⟩
    rw [← htarget]
    exact (hfree id a ha).symm
  applied := h.applied

theorem World.Kept.setApplying {w : World} (h : w.Kept) {id : Text} {a : Option Applying}
    (ha : ∀ b c, a = some b → w.changes.get id = some c →
      StillRecorded c w.settings ∧ b.write.target = targetOf c) : (w.setApplying id a).Kept where
  applying := by
    intro j b c hb hget
    by_cases hj : j = id
    · subst hj
      have hsame : (w.setApplying j a).applying j = a := Function.update_self _ _ _
      rw [hsame] at hb
      exact ha b c hb hget
    · have hother : (w.setApplying id a).applying j = w.applying j := Function.update_of_ne hj _ _
      rw [hother] at hb
      exact h.applying j b c hb hget
  applied := h.applied

theorem World.kept_step {w w' : World} {l : Label} (hinv : World.Inv w) (h : w.Kept)
    (hs : Step readIdpMetadata credentialOf w l w') (hl : Undisturbed w l) : w'.Kept := by
  cases hs with
  | tick t ht => exact ⟨h.applying, h.applied⟩
  | people p => exact ⟨h.applying, h.applied⟩
  | save write =>
    refine h.put write fun id a ha htarget => ?_
    cases hl _ none rfl id a ha htarget
  | facts verified credentials => exact ⟨h.applying, h.applied⟩
  | draft n now hnow hopen => exact ⟨h.applying, h.applied⟩
  | insert d rest id hd hid =>
    have hlock : w.applying id = none := by
      cases ha : w.applying id with
      | none => rfl
      | some a =>
        obtain ⟨c, hget, _⟩ := hinv.applying id a ha
        rw [hid] at hget
        cases hget
    exact World.Kept.setRow (w := { w with drafts := rest }) ⟨h.applying, h.applied⟩ hlock
      (fun b s t hd => by simp at hd)
  | reject id who c note now hnow hget hlock hcan =>
    exact h.setRow hlock fun b s t hd => by simp at hd
  | permit id who c note now hnow hget hlock hcan hkind =>
    exact h.setRow hlock fun b s t hd => by simp at hd
  | stale id who c note now hnow hget hlock hcan hkind code happly =>
    exact h.setRow hlock fun b s t hd => by simp at hd
  | approve id who c note now hnow hget hlock hcan hkind write happly =>
    refine h.setApplying fun b c' hb hget' => ?_
    rw [hget] at hget'
    cases hget'
    cases hb
    exact applyChange_ok happly
  | cancel id who c now hnow hget hlock hcan =>
    exact h.setRow hlock fun b s t hd => by simp at hd
  | redeem id who c now hnow hget hlock hwho hstate =>
    exact h.setRow hlock fun b s t hd => by simp at hd
  | lapse id c now hnow hget hlock hstate code happly =>
    exact h.setRow hlock fun b s t hd => by simp at hd
  | run id c now hnow hget hlock hstate write happly =>
    refine h.setApplying fun b c' hb hget' => ?_
    rw [hget] at hget'
    cases hget'
    cases hb
    exact applyChange_ok happly
  | finish id c a hget ha =>
    have hrecorded := (h.applying id a c ha hget).1
    -- without its own application nothing stands in the way of the writing
    have hrest : World.Kept (w.setApplying id none) := h.setApplying fun b c hb => by cases hb
    have hput := hrest.put a.write fun j b hb htarget => by
      by_cases hj : j = id
      · have hnone : (w.setApplying id none).applying j = none := by
          rw [hj]
          exact Function.update_self _ _ _
        rw [hnone] at hb
        cases hb
      · have hother : (w.setApplying id none).applying j = w.applying j := Function.update_of_ne hj _ _
        rw [hother] at hb
        cases hl _ _ rfl j b hb htarget
        exact hj rfl
    refine hput.setRow (Function.update_self _ _ _) ?_
    intro b s t hd
    unfold World.appliedDeeds at hd
    split at hd
    · simp only [List.mem_cons, reduceCtorEq, List.not_mem_nil, or_false, false_or] at hd
      cases hd
      exact hrecorded
    · simp only [List.mem_cons, List.not_mem_nil, or_false] at hd
      cases hd
      exact hrecorded
  | undo id => exact h.setApplying fun b c hb => by cases hb

/-- In every run in which no setting is written between the reading and the writing of an
application of another request, every request has four eyes, and what is applied finds the setting
as the request recorded it. -/
theorem changes_have_four_eyes {w : World} (h : Reached readIdpMetadata credentialOf Undisturbed w)
    (id : Text) : FourEyes (w.history id) ∧
      ∀ c s t, .applied c s t ∈ w.history id → StillRecorded c s := by
  refine ⟨World.fourEyes h id, ?_⟩
  have hkept : w.Kept := by
    clear id
    induction h with
    | fresh h =>
      obtain ⟨_, _, hlog, happlying⟩ := h
      refine ⟨fun id a c ha => ?_, fun id c s t hmem => ?_⟩
      · rw [happlying] at ha
        cases ha
      · rw [hlog] at hmem
        cases hmem
    | step h hs hl ih => exact World.kept_step (World.inv_reached h) ih hs hl
  intro c s t hmem
  obtain ⟨⟨i, d⟩, he, hd⟩ := List.mem_map.mp hmem
  cases hd
  exact hkept.applied i c s t (List.mem_of_mem_filter he)

end Runs

/-! ## A setting that is overwritten -/

/-- A rule against the drain of data. -/
def dlp (egressLimit : ℤ) : Value := .obj (named [("egressLimit", .int egressLimit)])

/-- Two owners, for two days. -/
def twoOwners : World where
  changes := .empty
  people := ⟨[⟨js "m1", js "u1", 0, true⟩, ⟨js "m2", js "u2", 0, true⟩], [], []⟩
  settings :=
    { columns := fun k => if k = .dlpPolicy then dlp 10 else .null
      providers := fun _ => none
      verified := false
      credentials := [] }
  clock := 48 * hour
  drafts := []
  applying := fun _ => none
  log := []

/-- The first owner asks for a higher limit. -/
def loosen : NewChange where
  kind := .dlpPolicy
  targetKey := none
  summary := js "Datenabfluss-Regeln (DLP) lockern"
  payload := .obj (named [("value", dlp 100)])
  before := dlp 10
  requestedBy := js "u1"

def asked : SecurityChange := inserted loosen (js "c1") twoOwners.look.deciders twoOwners.clock

def requestedWorld : World :=
  twoOwners.setRow (js "c1") asked [.requested (js "u1") twoOwners.clock twoOwners.look]

/-- The second owner approves, and the setting is read. -/
def approving (write : Write) : World :=
  requestedWorld.setApplying (js "c1")
    (some ⟨twoOwners.clock, write, some (js "u2", requestedWorld.look, none)⟩)

theorem get_requestedWorld : requestedWorld.changes.get (js "c1") = some asked :=
  OrderedMap.get_set_self _ _ _

theorem get_approving (write : Write) :
    (approving write).changes.get (js "c1") = some asked := get_requestedWorld

theorem applying_approving (write : Write) : (approving write).applying (js "c1") =
    some ⟨twoOwners.clock, write, some (js "u2", requestedWorld.look, none)⟩ := by
  exact Function.update_self (js "c1") _ requestedWorld.applying

theorem reached_requestedWorld (allowed : World → Label → Prop) (hall : ∀ w, allowed w none) :
    Reached (fun _ _ => none) (fun _ => none) allowed requestedWorld := by
  refine .step (w := { twoOwners with drafts := [⟨loosen, twoOwners.clock⟩] })
    (.step (.fresh ⟨rfl, rfl, rfl, fun _ => rfl⟩)
      (.draft loosen twoOwners.clock (le_refl _) (by decide)) (hall _))
    (.insert ⟨loosen, twoOwners.clock⟩ [] (js "c1") (List.Perm.refl _) rfl) (hall _)

theorem reached_approving (allowed : World → Label → Prop) (hall : ∀ w, allowed w none) :
    ∃ write, Reached (fun _ _ => none) (fun _ => none) allowed (approving write) := by
  have hsome : (applyChange (fun _ _ => none) (fun _ => none) asked requestedWorld.settings
      requestedWorld.clock).toOption.isSome = true := by decide +kernel
  cases hw : applyChange (fun _ _ => none) (fun _ => none) asked requestedWorld.settings
      requestedWorld.clock with
  | error e =>
    rw [hw] at hsome
    cases hsome
  | ok write =>
    have hstep : Step (fun _ _ => none) (fun _ => none) requestedWorld none (approving write) := by
      unfold approving
      exact Step.approve (w := requestedWorld) (js "c1") (js "u2") asked none twoOwners.clock
        (le_refl _) get_requestedWorld rfl (by decide) rfl write hw
    exact ⟨write, .step (reached_requestedWorld allowed hall) hstep (hall _)⟩

/-- A stricter rule is saved between the reading and the writing of an approved change, which
then overwrites it. -/
theorem newer_setting_is_overwritten :
    ∃ w, Reached (fun _ _ => none) (fun _ => none) (fun _ _ => True) w ∧
      ∃ c s t, .applied c s t ∈ w.history (js "c1") ∧ ¬ StillRecorded c s := by
  obtain ⟨write, hreached⟩ := reached_approving (fun _ _ => True) fun _ => trivial
  have hsaved := hreached.step (.save (.column .dlpPolicy (dlp 5))) trivial
  have hend := hsaved.step (.finish (js "c1") asked _ (get_approving write)
    (applying_approving write)) trivial
  refine ⟨_, hend, asked, requestedWorld.settings.put (.column .dlpPolicy (dlp 5)),
    twoOwners.clock, ?_, ?_⟩
  · exact List.mem_cons_of_mem _ (List.mem_cons_of_mem _ List.mem_cons_self)
  · unfold StillRecorded
    decide +kernel

/-- Without it the approved change finds the setting as it was. -/
theorem changes_have_four_eyes_sample : ∃ w c s t, .applied c s t ∈ World.history w (js "c1") ∧
    FourEyes (w.history (js "c1")) ∧ StillRecorded c s := by
  obtain ⟨write, hreached⟩ := reached_approving Undisturbed fun _ _ _ h => by cases h
  have hl : Undisturbed (approving write) (some (write.target, some (js "c1"))) := by
    intro t from' heq id a ha _
    cases heq
    by_cases hid : id = js "c1"
    · rw [hid]
    · have hnone : (approving write).applying id = none := Function.update_of_ne hid _ _
      rw [hnone] at ha
      cases ha
  have hend := hreached.step (.finish (js "c1") asked _ (get_approving write)
    (applying_approving write)) hl
  have hmem := List.mem_cons_of_mem (Deed.requested (js "u1") twoOwners.clock twoOwners.look)
    (List.mem_cons_of_mem (Deed.decided (js "u2") twoOwners.clock requestedWorld.look true)
      (List.mem_singleton_self (Deed.applied asked requestedWorld.settings twoOwners.clock)))
  obtain ⟨hfour, hkept⟩ := changes_have_four_eyes hend (js "c1")
  have hstill := hkept asked requestedWorld.settings twoOwners.clock hmem
  exact ⟨(approving write).finished (js "c1") asked
    ⟨twoOwners.clock, write, some (js "u2", requestedWorld.look, none)⟩, asked,
    requestedWorld.settings, twoOwners.clock, hmem, hfour, hstill⟩

end Klick.SecurityChanges
