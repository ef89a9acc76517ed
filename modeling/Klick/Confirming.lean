-- When an anchor counts as confirmed: how many calendars have named a block
-- for it in their own responses, and what a calendar is told apart by.
import Klick.OtsFiles

open Js

namespace Klick.Ots

variable {D : Digests} {S : Setting} {answer : ℕ → Option Bytes} {file : OtsTimestamp}

/-! ## Blocks named by calendars -/

variable (D S answer file) in
/-- The calendar at an address has named a block for a commitment of the file in its own response. -/
def NamesBlock (uri : Text) : Prop :=
  ∃ k p body upgraded, (pendingCommitments file)[k]? = some p ∧ p.uri = uri ∧
    calendarAllowed S uri = true ∧ answer k = some body ∧
    readResponse D body p.commitment = .ok upgraded ∧ bitcoinHits upgraded ≠ []

/-- The host in an address. -/
def Setting.host (S : Setting) (uri : Text) : Option Text := (S.newUrl uri).map (·.hostname)

/-- The calendars that the pending commitments of a file lead to have one address for each host. -/
def OneAddress (S : Setting) (file : OtsTimestamp) : Prop :=
  ∀ p ∈ pendingCommitments file, ∀ q ∈ pendingCommitments file,
    calendarAllowed S p.uri = true → calendarAllowed S q.uri = true →
    S.host p.uri = S.host q.uri → p.uri = q.uri

theorem lowest_eq_some {bs : List BitcoinBlock} {b : BitcoinBlock} (h : lowest bs = some b) : b ∈ bs :=
  (List.mem_insertionSort _).mp (List.mem_of_head? h)

theorem hits_of_bitcoinAttestation {t : OtsTimestamp} {b : BitcoinBlock}
    (h : bitcoinAttestation t = some b) : bitcoinHits t ≠ [] :=
  List.ne_nil_of_mem (lowest_eq_some h)

/-- A block that is named is kept only for the address that was asked. -/
theorem get_named {u : Upgrade} {asked uri : Text} {b : Option BitcoinBlock}
    (h : (u.named asked b).byCalendar.get uri ≠ none) :
    u.byCalendar.get uri ≠ none ∨ uri = asked ∧ b ≠ none := by
  unfold Upgrade.named at h
  split at h
  · exact .inl h
  rename_i b
  have hset : (u.byCalendar.set asked b).get uri ≠ none →
      u.byCalendar.get uri ≠ none ∨ uri = asked ∧ some b ≠ none := by
    intro hne
    rw [OrderedMap.get_set] at hne
    split_ifs at hne with hsame
    · exact .inr ⟨hsame, by simp⟩
    · exact .inl hne
  split at h
  · exact hset h
  · split_ifs at h
    · exact hset h
    · exact .inl h

/-- Every address that has a block after a request had one before, or has named one now. -/
theorem get_upgradeOne {u : Upgrade} {p : PendingCommitment} {body : Option Bytes} {uri : Text}
    (h : (upgradeOne D S u p body).byCalendar.get uri ≠ none) :
    u.byCalendar.get uri ≠ none ∨ uri = p.uri ∧ calendarAllowed S uri = true ∧
      ∃ bs upgraded, body = some bs ∧ readResponse D bs p.commitment = .ok upgraded ∧
        bitcoinHits upgraded ≠ [] := by
  unfold upgradeOne at h
  by_cases hallowed : calendarAllowed S p.uri = true
  swap
  · rw [if_pos hallowed] at h
    exact .inl h
  rw [if_neg (not_not_intro hallowed)] at h
  split at h
  · exact .inl h
  rename_i bs
  split at h
  · exact .inl h
  rename_i upgraded hup
  split at h
  · exact .inl h
  · exact .inl h
  · rcases get_named h with h | ⟨rfl, hb⟩
    · exact .inl h
    · obtain ⟨b, hb⟩ := Option.ne_none_iff_exists'.mp hb
      exact .inr ⟨rfl, hallowed, bs, upgraded, rfl, hup, hits_of_bitcoinAttestation hb⟩

/-- Every address that has a block in the end has named it in its own response. -/
theorem namesBlock_of_get {uri : Text} (h : (upgradeAll D S answer file).byCalendar.get uri ≠ none) :
    NamesBlock D S answer file uri := by
  unfold upgradeAll at h
  have hrun : ∀ (asked : List (PendingCommitment × Option Bytes)) (u : Upgrade),
      (∀ a ∈ asked, ∃ k, (pendingCommitments file)[k]? = some a.1 ∧ answer k = a.2) →
      (∀ uri, u.byCalendar.get uri ≠ none → NamesBlock D S answer file uri) →
      ∀ uri, (asked.foldl (fun u p => upgradeOne D S u p.1 p.2) u).byCalendar.get uri ≠ none →
        NamesBlock D S answer file uri := by
    intro asked
    induction asked with
    | nil => exact fun u _ hu => hu
    | cons a asked ih =>
      intro u hasked hu
      refine ih _ (fun x hx => hasked x (List.mem_cons_of_mem _ hx)) fun uri huri => ?_
      rcases get_upgradeOne huri with h | ⟨rfl, hallowed, bs, upgraded, hbody, hup, hhits⟩
      · exact hu uri h
      · obtain ⟨k, hk, hanswer⟩ := hasked a List.mem_cons_self
        exact ⟨k, a.1, bs, upgraded, hk, rfl, hallowed, hanswer.trans hbody, hup, hhits⟩
  refine hrun _ ⟨file, .empty⟩ ?_ (fun uri huri => absurd rfl huri) uri h
  intro a ha
  obtain ⟨k, hk, rfl⟩ := List.mem_mapIdx.mp ha
  exact ⟨k, List.getElem?_eq_getElem hk, rfl⟩

/-! ## Confirmation -/

/-- How many calendars must name a block. -/
def needed (acceptedBy : ℕ) : ℕ := min confirmingCalendars (max 1 acceptedBy)

/-- An anchor is set to confirmed only when as many calendars as needed, each at an address of its
own, have named a block in their own responses. Where each host has one address, these are as
many hosts. -/
theorem confirmed_by_calendars {a a' : Anchor} (h : upgradeAnchor D S answer a = .ok a')
    (hbefore : a.status ≠ .confirmed) (hafter : a'.status = .confirmed) :
    ∃ ots file, a.ots = some ots ∧ parseOtsFile D ots = .ok file ∧
      ∃ uris : List Text, uris.Nodup ∧ uris.length = needed a.calendars.length ∧
        (∀ uri ∈ uris, NamesBlock D S answer file uri) ∧
        (OneAddress S file → (uris.map S.host).Nodup) := by
  unfold upgradeAnchor at h
  split at h
  · cases h
    exact absurd hafter hbefore
  rename_i ots hots
  obtain ⟨file, hfile, h⟩ := bind_eq_ok.mp h
  obtain ⟨ots', _, h⟩ := bind_eq_ok.mp h
  refine ⟨ots, file, hots, hfile, ?_⟩
  have hlength : needed a.calendars.length ≤ (upgradeAll D S answer file).byCalendar.entries.length := by
    by_contra hlt
    have hnone : confirmedBy (upgradeAll D S answer file).byCalendar a.calendars.length = none := by
      unfold confirmedBy OrderedMap.values
      rw [List.length_map]
      unfold needed at hlt
      exact if_pos (by omega)
    rw [hnone] at h
    cases h
    exact hbefore hafter
  generalize hm : (upgradeAll D S answer file).byCalendar = m at hlength
  have hnames : ∀ uri ∈ (m.entries.map Prod.fst).take (needed a.calendars.length),
      NamesBlock D S answer file uri := by
    intro uri huri
    refine namesBlock_of_get ?_
    rw [hm]
    exact fun hnone => OrderedMap.find_eq_none_iff.mp hnone (List.mem_of_mem_take huri)
  have hnodup : ((m.entries.map Prod.fst).take (needed a.calendars.length)).Nodup :=
    m.nodup.sublist (List.take_sublist _ _)
  refine ⟨_, hnodup, ?_, hnames, fun hone => ?_⟩
  · rw [List.length_take, List.length_map]
    omega
  · refine List.Nodup.map_on ?_ hnodup
    intro x hx y hy hhost
    obtain ⟨k, p, _, _, hp, rfl, hpa, _⟩ := hnames x hx
    obtain ⟨l, q, _, _, hq, rfl, hqa, _⟩ := hnames y hy
    exact hone p (List.mem_of_getElem? hp) q (List.mem_of_getElem? hq) hpa hqa hhost

/-! ## One calendar alone -/

/-- One attestation is merged without an error, and the heights can be written as before. -/
theorem mergeAt_leaf {m : Bytes} {a : OtsAttestation} (ha : a.Safe) (t : OtsTimestamp) (hsafe : t.Safe)
    {merged : OtsTimestamp} {e : Option String} (h : mergeAt m (leaf m a) t = some (merged, e)) :
    e = none ∧ merged.Safe := by
  induction t using OtsTimestamp.byOps generalizing merged e with
  | h m' as os ih =>
    obtain ⟨hatts, hops⟩ := (forall_attestationsAt OtsAttestation.Safe).mp hsafe
    rw [mergeAt] at h
    split_ifs at h with hmsg
    · subst hmsg
      obtain ⟨added, hadded, hall⟩ := mergeTimestamp_leaf os hatts ha
      rw [hadded] at h
      cases h
      refine ⟨rfl, (forall_attestationsAt OtsAttestation.Safe).mpr ⟨fun b hb => ?_, hops⟩⟩
      rcases List.mem_append.mp hb with hb | hb
      · exact hatts b hb
      · rw [hall b hb]
        exact ha
    · obtain ⟨⟨out, e'⟩, hout, heq⟩ := Option.map_eq_some_iff.mp h
      cases heq
      have hrun : ∀ {os out : List (OtsOp × OtsTimestamp)} {e : Option String},
          (∀ o ∈ os, ∀ merged e, mergeAt m (leaf m a) o.2 = some (merged, e) → e = none ∧ merged.Safe) →
          (∀ o ∈ os, o.2.Safe) → mergeAtOps m (leaf m a) os = some (out, e) →
          e = none ∧ ∀ o ∈ out, o.2.Safe := by
        intro os
        induction os with
        | nil =>
          intro out e _ _ h
          cases h
        | cons o os ihOps =>
          intro out e ih hos h
          have hrest := fun x hx => hos x (List.mem_cons_of_mem _ hx)
          rw [mergeAtOps] at h
          split at h
          · rename_i merged e' hm
            cases h
            obtain ⟨rfl, hsafe⟩ := ih o List.mem_cons_self _ _ hm
            refine ⟨rfl, fun x hx => ?_⟩
            rcases List.mem_cons.mp hx with rfl | hx
            · exact hsafe
            · exact hrest x hx
          · obtain ⟨⟨out', e'⟩, hout, heq⟩ := Option.map_eq_some_iff.mp h
            cases heq
            obtain ⟨rfl, hall⟩ := ihOps (fun x hx => ih x (List.mem_cons_of_mem _ hx)) hrest hout
            refine ⟨rfl, fun x hx => ?_⟩
            rcases List.mem_cons.mp hx with rfl | hx
            · exact hos _ List.mem_cons_self
            · exact hall x hx
      obtain ⟨rfl, hall⟩ := hrun (fun o ho merged e h => ih o ho (hops o ho) h) hops hout
      exact ⟨rfl, (forall_attestationsAt OtsAttestation.Safe).mpr ⟨hatts, hall⟩⟩

theorem mergeAtOps_ne_none {m : Bytes} {other : OtsTimestamp} {os : List (OtsOp × OtsTimestamp)}
    {o : OtsOp × OtsTimestamp} (ho : o ∈ os) (h : mergeAt m other o.2 ≠ none) :
    mergeAtOps m other os ≠ none := by
  induction os with
  | nil => cases ho
  | cons p os ih =>
    rw [mergeAtOps]
    split
    · exact Option.some_ne_none _
    · rename_i hp
      rcases List.mem_cons.mp ho with rfl | ho
      · exact absurd hp h
      · rw [ne_eq, Option.map_eq_none_iff]
        exact ih ho

/-- A message that has an attestation is found. -/
theorem mergeAt_ne_none {m : Bytes} (other t : OtsTimestamp)
    (h : ∃ b ∈ attestationsAt t, b.msg = m) : mergeAt m other t ≠ none := by
  induction t using OtsTimestamp.byOps with
  | h m' as os ih =>
    rw [mergeAt]
    split_ifs with hmsg
    · exact Option.some_ne_none _
    obtain ⟨b, hb, hbm⟩ := h
    rw [attestationsAt, attestationsOf_eq] at hb
    rcases List.mem_append.mp hb with hb | hb
    · obtain ⟨_, _, rfl⟩ := List.mem_map.mp hb
      exact absurd hbm hmsg
    obtain ⟨o, ho, hb⟩ := List.mem_flatMap.mp hb
    have hops := mergeAtOps_ne_none ho (ih o ho ⟨b, hb, hbm⟩)
    rw [ne_eq, Option.map_eq_none_iff]
    exact hops

/-- The calendar of an anchor first answers with a promise and later with a block. -/
theorem one_calendar_upgrade (D : Digests) : ∃ (answers : List Answer) (body : Bytes) (a a' : Anchor)
    (ots : Bytes) (file : OtsTimestamp),
      anchorNow D oneCalendar (List.replicate 64 (ch '0')) (List.replicate 16 0) answers = .ok a ∧
      upgradeAnchor D oneCalendar (fun _ => some body) a = .ok a' ∧ a.status = .pending ∧
      a'.status = .confirmed ∧ a.calendars = [poolA] ∧ a.ots = some ots ∧
      parseOtsFile D ots = .ok file ∧ ∀ p ∈ pendingCommitments file, p.uri = poolA := by
  obtain ⟨s, m, hs, hnew, hm⟩ := stamped D
  have hpaired : (OtsAttestation.pending poolA).Read := by
    have hread := paired_utf8Decode (utf8 poolA)
    have hsame : utf8Decode (utf8 poolA) = poolA := by decide
    rw [hsame] at hread
    exact ⟨hread, by decide⟩
  have hfits : (OtsAttestation.pending poolA).Fits := by
    change (utf8 poolA).length ≤ maxUri
    decide
  have hfive : (OtsAttestation.bitcoin 5).Safe := by
    change 5 ≤ maxSafe
    decide
  have hpromise := readResponse_leaf (D := D) hpaired trivial hfits (by decide) m
  have hblock := readResponse_leaf (D := D) (a := .bitcoin 5) trivial hfive trivial (by decide) m
  -- the anchor
  have hmerge : mergeTimestamp (newTimestamp m) (leaf m (.pending poolA)) =
      (leaf m (.pending poolA), none) := by
    have hmsg : ¬ (newTimestamp m).msg ≠ m := not_not_intro rfl
    rw [leaf, mergeTimestamp, if_neg hmsg]
    rfl
  have hcollect := collectAll_one hnew hpromise hmerge
  obtain ⟨hsound, hfull⟩ := file_sound hs (c := leaf m (.pending poolA)) (by
    rw [hnew]
    rfl) (readResponse_sound hpromise).1.sound (readResponse_sound hpromise).2
  have hatts : ∀ b ∈ attestationsAt (s.file (leaf m (.pending poolA))), b = ⟨m, .pending poolA⟩ := by
    intro b hb
    simpa [Stamp.file, leaf, attestationsAt, attestationsOf] using hb
  have hsafe : (s.file (leaf m (.pending poolA))).Safe := fun b hb => by
    rw [hatts b hb]
    exact trivial
  have hdigest : (s.file (leaf m (.pending poolA))).msg.length = 32 := (stampTree_eq_ok hs).1
  have hwrite := (serializeOtsFile_exactly hdigest hfull).of_cond hsafe
  have hparse := (parseOtsFile_exactly hdigest hsound hfull hsafe).of_cond
    ⟨by
      simp only [Stamp.file, leaf, OtsTimestamp.depth, depthOf]
      decide, by
      simp only [Stamp.file, leaf, OtsTimestamp.entries, entriesOf]
      decide, fun b hb => by
      rw [hatts b hb]
      exact hfits⟩
  have hsorted : (s.file (leaf m (.pending poolA))).sorted = s.file (leaf m (.pending poolA)) := rfl
  rw [hsorted] at hparse
  have hanchor : anchorNow D oneCalendar (List.replicate 64 (ch '0')) (List.replicate 16 0)
      [⟨poolA, some (0x00 :: (OtsAttestation.pending poolA).code)⟩] =
      .ok ⟨some (s.file (leaf m (.pending poolA))).file, .pending, [poolA], none⟩ := by
    unfold anchorNow
    rw [hs]
    change (if (collectAll D oneCalendar s _).answered = [] then _ else _) = _
    rw [hcollect, if_neg (by simp)]
    exact bind_eq_ok.mpr ⟨_, hwrite, rfl⟩
  -- the upgrade
  have hpending : pendingCommitments (s.file (leaf m (.pending poolA))) = [⟨poolA, m⟩] := rfl
  obtain ⟨merged, hmerged, hmergedSafe⟩ : ∃ merged,
      mergeAt m (leaf m (.bitcoin 5)) (s.file (leaf m (.pending poolA))) = some (merged, none) ∧
        merged.Safe := by
    obtain ⟨⟨merged, e⟩, hsome⟩ := Option.ne_none_iff_exists'.mp
      (mergeAt_ne_none (leaf m (.bitcoin 5)) (s.file (leaf m (.pending poolA)))
        ⟨⟨m, .pending poolA⟩, List.mem_singleton_self _, rfl⟩)
    obtain ⟨rfl, hmergedSafe⟩ := mergeAt_leaf hfive _ hsafe hsome
    exact ⟨merged, hsome, hmergedSafe⟩
  have hnamed : bitcoinAttestation (leaf m (.bitcoin 5)) = some ⟨5, toHex m.reverse⟩ := by
    have hhits : bitcoinHits (leaf m (.bitcoin 5)) = [⟨5, toHex m.reverse⟩] := by
      change List.filterMap _ [_] = _
      rw [List.filterMap_cons, List.filterMap_nil]
      dsimp only
      rw [if_pos hm]
    rw [bitcoinAttestation, hhits]
    rfl
  have hall : upgradeAll D oneCalendar (fun _ => some (0x00 :: (OtsAttestation.bitcoin 5).code))
      (s.file (leaf m (.pending poolA))) =
      ⟨merged, OrderedMap.empty.set poolA ⟨5, toHex m.reverse⟩⟩ := by
    rw [upgradeAll, hpending, List.mapIdx_cons, List.mapIdx_nil, List.foldl_cons, List.foldl_nil,
      upgradeOne, if_neg (not_not_intro poolA_allowed)]
    dsimp only
    rw [hblock]
    dsimp only
    rw [hmerged]
    dsimp only
    rw [hnamed]
    rfl
  obtain ⟨hmergedMsg, hmergedSound, hmergedFull⟩ := mergeAt_sound m _ (readResponse_sound hblock).1
    (readResponse_sound hblock).2 _ hsound hfull hmerged
  have hrewrite := (serializeOtsFile_exactly (hmergedMsg ▸ hdigest) hmergedFull).of_cond hmergedSafe
  refine ⟨_, 0x00 :: (OtsAttestation.bitcoin 5).code, _,
    ⟨some merged.file, .confirmed, [poolA], some ⟨5, toHex m.reverse⟩⟩, _, _, hanchor, ?_, rfl, rfl, rfl,
    rfl, hparse, ?_⟩
  · unfold upgradeAnchor
    dsimp only
    refine bind_eq_ok.mpr ⟨_, hparse, ?_⟩
    rw [hall]
    exact bind_eq_ok.mpr ⟨_, hrewrite, rfl⟩
  · intro p hp
    rw [hpending] at hp
    rw [List.mem_singleton.mp hp]

/-- An anchor that one calendar has accepted is confirmed by that calendar alone. -/
theorem one_calendar_confirms : ¬ ∃ D : Digests, ∀ S answer root nonce answers a a',
    anchorNow D S root nonce answers = .ok a → upgradeAnchor D S answer a = .ok a' →
    a'.status = .confirmed → ∃ ots file uri uri', a.ots = some ots ∧ parseOtsFile D ots = .ok file ∧
      NamesBlock D S answer file uri ∧ NamesBlock D S answer file uri' ∧ S.host uri ≠ S.host uri' := by
  rintro ⟨D, hall⟩
  obtain ⟨answers, body, a, a', ots, file, ha, ha', _, hconfirmed, _, hots, hfile, hpending⟩ :=
    one_calendar_upgrade D
  obtain ⟨ots', file', uri, uri', hots', hfile', huri, huri', hne⟩ :=
    hall _ _ _ _ _ _ _ ha ha' hconfirmed
  rw [hots] at hots'
  cases hots'
  rw [hfile] at hfile'
  cases hfile'
  obtain ⟨_, p, _, _, hp, rfl, _⟩ := huri
  obtain ⟨_, q, _, _, hq, rfl, _⟩ := huri'
  rw [hpending p (List.mem_of_getElem? hp), hpending q (List.mem_of_getElem? hq)] at hne
  exact hne rfl

/-- The one address that this takes. -/
theorem confirmed_by_calendars_sample : ∃ answer a a' ots file, ∃ uris : List Text,
    upgradeAnchor zeroDigests oneCalendar answer a = .ok a' ∧ a'.status = .confirmed ∧
      a.ots = some ots ∧ parseOtsFile zeroDigests ots = .ok file ∧
      uris.length = needed a.calendars.length ∧
      ∀ uri ∈ uris, NamesBlock zeroDigests oneCalendar answer file uri := by
  obtain ⟨answers, body, a, a', _, _, ha, ha', hpending, hconfirmed, _⟩ :=
    one_calendar_upgrade zeroDigests
  obtain ⟨ots, file, hots, hfile, uris, _, hlength, hnames, _⟩ :=
    confirmed_by_calendars ha' (by simp [hpending]) hconfirmed
  exact ⟨_, a, a', ots, file, uris, ha', hconfirmed, hots, hfile, hlength, hnames⟩

end Klick.Ots
