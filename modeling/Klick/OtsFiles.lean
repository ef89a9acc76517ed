-- The files that are stored for an anchor: every timestamp that is read and
-- merged is sound, so its file is read back just when it keeps the limits.
import Klick.OtsRoundTrip
import Klick.Calendars

open Js

namespace Klick.Ots

variable {D : Digests}

/-! ## What is read is sound -/

/-- An operation that is applied gives a message that is not too long. -/
theorem applyOp_eq_ok {op : OtsOp} {msg out : Bytes} :
    applyOp D op msg = .ok out ↔ (applyOpRaw D op msg).length ≤ maxMsg ∧ applyOpRaw D op msg = out := by
  unfold applyOp
  split_ifs with h
  · exact ⟨fun h' => (nomatch h'), fun h' => absurd h (by omega)⟩
  · exact ⟨fun h' => ⟨by omega, Except.ok.inj h'⟩, fun h' => congrArg _ h'.2⟩

theorem bytes_eq_ok {n : ℕ} {r r' : Reader} {bs : Bytes} (h : r.bytes n = .ok (bs, r')) :
    bs.length = n := by
  unfold Reader.bytes at h
  split_ifs at h with hlen
  cases h
  rw [List.length_take]
  omega

theorem varbytes_eq_ok {max : ℕ} {r r' : Reader} {bs : Bytes} (h : r.varbytes max = .ok (bs, r')) :
    bs.length ≤ max := by
  obtain ⟨⟨n, r1⟩, _, h⟩ := bind_eq_ok.mp h
  dsimp only at h
  split_ifs at h with hmax
  rw [bytes_eq_ok h]
  omega

theorem read_of_readAttestation {r r' : Reader} {a : OtsAttestation}
    (h : readAttestation r = .ok (a, r')) : a.Read := by
  obtain ⟨⟨tag, r1⟩, htag, h⟩ := bind_eq_ok.mp h
  obtain ⟨⟨payload, r2⟩, hpayload, h⟩ := bind_eq_ok.mp h
  dsimp only at h
  split_ifs at h with hpending hbitcoin
  · obtain ⟨uri, huri, h⟩ := bind_eq_ok.mp h
    cases h
    obtain ⟨⟨bs, r3⟩, hbs, h⟩ := bind_eq_ok.mp huri
    dsimp only at h
    split_ifs at h
    cases h
    have := decodeFrom_length none uri
    have := varbytes_eq_ok hbs
    refine ⟨paired_utf8Decode uri, ?_⟩
    change (decodeFrom none uri).length ≤ _
    omega
  · obtain ⟨height, _, h⟩ := bind_eq_ok.mp h
    cases h
    exact trivial
  · cases h
    exact ⟨bytes_eq_ok htag, hpending, hbitcoin, varbytes_eq_ok hpayload⟩

theorem small_of_readOp {tag : UInt8} {r r' : Reader} {op : OtsOp} (h : readOp tag r = .ok (op, r')) :
    op.Small := by
  unfold readOp at h
  split_ifs at h
  · obtain ⟨⟨arg, r1⟩, harg, h⟩ := bind_eq_ok.mp h
    cases h
    exact varbytes_eq_ok harg
  · obtain ⟨⟨arg, r1⟩, harg, h⟩ := bind_eq_ok.mp h
    cases h
    exact varbytes_eq_ok harg
  all_goals
    cases h
    exact trivial

variable (D) in
/-- A branch of a node with a message. -/
structure Branch (m : Bytes) (o : OtsOp × OtsTimestamp) : Prop where
  small : o.1.Small
  applied : applyOp D o.1 m = .ok o.2.msg
  sound : o.2.Sound D
  full : o.2.Full

variable (D) in
/-- A timestamp whose branches are full, though it may have no item itself. -/
structure OtsTimestamp.Growing (t : OtsTimestamp) : Prop where
  atts : ∀ a ∈ t.attestations, a.Read
  branches : ∀ o ∈ t.ops, Branch D t.msg o

namespace OtsTimestamp.Growing

variable {t : OtsTimestamp}

theorem sound (h : t.Growing D) : t.Sound D := by
  cases t
  exact .mk h.atts (fun o ho => ⟨(h.branches o ho).small, (h.branches o ho).applied⟩)
    fun o ho => (h.branches o ho).sound

theorem full (h : t.Growing D) (hsome : t.attestations ≠ [] ∨ t.ops ≠ []) : t.Full := by
  cases t
  exact .mk hsome fun o ho => (h.branches o ho).full

theorem of_sound (hs : t.Sound D) (hf : t.Full) : t.Growing D := by
  cases hs with
  | mk hatts hmsgs hops =>
  cases hf with
  | mk hsome hfulls =>
  exact ⟨hatts, fun o ho => ⟨(hmsgs o ho).1, (hmsgs o ho).2, hops o ho, hfulls o ho⟩⟩

theorem empty (m : Bytes) : (newTimestamp m).Growing D :=
  ⟨fun _ h => (nomatch h), fun _ h => (nomatch h)⟩

end OtsTimestamp.Growing

theorem OtsTimestamp.Full.some {t : OtsTimestamp} (h : t.Full) : t.attestations ≠ [] ∨ t.ops ≠ [] := by
  cases h with
  | mk hsome _ => exact hsome

variable (D) in
/-- What the reader gives for an item. -/
def OtsItem.Read (m : Bytes) : OtsItem → Prop
  | .attestation a => a.Read
  | .op o next => Branch D m (o, next)

theorem growing_push {t : OtsTimestamp} (h : t.Growing D) {i : OtsItem} (hi : i.Read D t.msg) :
    (t.push i).Growing D ∧ (t.push i).Full := by
  obtain ⟨m, as, os⟩ := t
  cases i with
  | attestation a =>
    have hgrow : (OtsTimestamp.push (.mk m as os) (.attestation a)).Growing D := by
      refine ⟨fun b hb => ?_, h.branches⟩
      rcases List.mem_append.mp hb with hb | hb
      · exact h.atts b hb
      · rw [List.mem_singleton.mp hb]
        exact hi
    exact ⟨hgrow, hgrow.full (.inl (by simp [OtsTimestamp.push, OtsTimestamp.attestations]))⟩
  | op o next =>
    have hgrow : (OtsTimestamp.push (.mk m as os) (.op o next)).Growing D := by
      refine ⟨h.atts, fun b hb => ?_⟩
      rcases List.mem_append.mp hb with hb | hb
      · exact h.branches b hb
      · rw [List.mem_singleton.mp hb]
        exact hi
    exact ⟨hgrow, hgrow.full (.inr (by simp [OtsTimestamp.push, OtsTimestamp.ops]))⟩

/-- The reader, by induction on the bound of its recursion. -/
theorem read_sound (fuel : ℕ) :
    (∀ m depth r t r', readTimestamp D fuel m depth r = .ok (t, r') →
      t.msg = m ∧ t.Sound D ∧ t.Full) ∧
    (∀ depth (ts : OtsTimestamp) r t r', ts.Growing D → readItems D fuel depth ts r = .ok (t, r') →
      t.msg = ts.msg ∧ t.Sound D ∧ t.Full) ∧
    ∀ m depth tag r i r', readItem D fuel m depth tag r = .ok (i, r') → i.Read D m := by
  induction fuel with
  | zero =>
    refine ⟨?_, ?_, ?_⟩
    · intro m depth r t r' h
      cases h
    · intro depth ts r t r' _ h
      cases h
    · intro m depth tag r i r' h
      cases h
  | succ fuel ih =>
    obtain ⟨ihTimestamp, ihItems, ihItem⟩ := ih
    refine ⟨?_, ?_, ?_⟩
    · intro m depth r t r' h
      rw [readTimestamp] at h
      split_ifs at h
      exact ihItems depth (newTimestamp m) r t r' (.empty m) h
    · intro depth ts r t r' hts h
      rw [readItems] at h
      obtain ⟨⟨tag, r1⟩, _, h⟩ := bind_eq_ok.mp h
      dsimp only at h
      split_ifs at h
      · obtain ⟨⟨tag, r2⟩, _, h⟩ := bind_eq_ok.mp h
        obtain ⟨⟨i, r3⟩, hi, h⟩ := bind_eq_ok.mp h
        obtain ⟨hgrow, _⟩ := growing_push hts (ihItem _ _ _ _ i _ hi)
        obtain ⟨hmsg, hrest⟩ := ihItems _ _ _ _ _ hgrow h
        exact ⟨hmsg.trans (msg_push ts i), hrest⟩
      · obtain ⟨⟨i, r3⟩, hi, h⟩ := bind_eq_ok.mp h
        cases h
        obtain ⟨hgrow, hfull⟩ := growing_push hts (ihItem _ _ _ _ i _ hi)
        exact ⟨msg_push ts i, hgrow.sound, hfull⟩
    · intro m depth tag r i r' h
      rw [readItem] at h
      obtain ⟨r1, _, h⟩ := bind_eq_ok.mp h
      split_ifs at h
      · obtain ⟨⟨a, r2⟩, ha, h⟩ := bind_eq_ok.mp h
        cases h
        exact read_of_readAttestation ha
      · obtain ⟨⟨op, r2⟩, hop, h⟩ := bind_eq_ok.mp h
        obtain ⟨msg, hmsg, h⟩ := bind_eq_ok.mp h
        obtain ⟨⟨next, r3⟩, hnext, h⟩ := bind_eq_ok.mp h
        cases h
        obtain ⟨rfl, hsound, hfull⟩ := ihTimestamp _ _ _ _ _ hnext
        exact ⟨small_of_readOp hop, hmsg, hsound, hfull⟩

theorem parseTimestamp_sound {bs msg : Bytes} {t : OtsTimestamp} (h : parseTimestamp D bs msg = .ok t) :
    t.msg = msg ∧ t.Sound D ∧ t.Full := by
  obtain ⟨⟨t', r⟩, ht, h⟩ := bind_eq_ok.mp h
  dsimp only at h
  split_ifs at h
  cases h
  exact (read_sound _).1 _ _ _ _ _ ht

theorem parseOtsFile_sound {bs : Bytes} {t : OtsTimestamp} (h : parseOtsFile D bs = .ok t) :
    t.msg.length = 32 ∧ t.Sound D ∧ t.Full := by
  unfold parseOtsFile at h
  obtain ⟨⟨magic, r1⟩, _, h⟩ := bind_eq_ok.mp h
  dsimp only at h
  split_ifs at h
  obtain ⟨⟨version, r2⟩, _, h⟩ := bind_eq_ok.mp h
  dsimp only at h
  split_ifs at h
  obtain ⟨⟨hash, r3⟩, _, h⟩ := bind_eq_ok.mp h
  dsimp only at h
  split_ifs at h
  obtain ⟨⟨digest, r4⟩, hdigest, h⟩ := bind_eq_ok.mp h
  obtain ⟨⟨t', r5⟩, ht, h⟩ := bind_eq_ok.mp h
  dsimp only at h
  split_ifs at h
  cases h
  obtain ⟨hmsg, hsound, hfull⟩ := (read_sound _).1 _ _ _ _ _ ht
  exact ⟨hmsg ▸ bytes_eq_ok hdigest, hsound, hfull⟩

/-! ## What is merged stays sound -/

theorem lastBranch_eq_some {key : Text} {os before after : List (OtsOp × OtsTimestamp)}
    {hit : OtsOp × OtsTimestamp} (h : lastBranch key os = some (before, hit, after)) :
    os = before ++ hit :: after := by
  induction os generalizing before with
  | nil => cases h
  | cons o os ih =>
    rw [lastBranch] at h
    split at h
    · rename_i before' hit' after' hlast
      cases h
      rw [ih hlast]
      rfl
    · split_ifs at h
      cases h
      rfl

variable (D) in
/-- What a merge leaves of a timestamp. -/
structure Merged (t t' : OtsTimestamp) (e : Option String) : Prop where
  msg : t'.msg = t.msg
  growing : t'.Growing D
  full : t.Full → t'.Full
  /-- A merge that does not throw leaves an item. -/
  some : e = none → t'.Full

theorem addAttestations_mem {present : List Bytes} {as added : List OtsAttestation} {e : Option String}
    (h : addAttestations present as = (added, e)) : ∀ a ∈ added, a ∈ as := by
  induction as generalizing added e with
  | nil =>
    cases h
    exact fun _ ha => nomatch ha
  | cons b bs ih =>
    rw [addAttestations] at h
    split at h
    · cases h
      exact fun _ ha => nomatch ha
    · cases h
      intro a ha
      split_ifs at ha
      · exact List.mem_cons_of_mem _ (ih rfl a ha)
      · rcases List.mem_cons.mp ha with rfl | ha
        · exact List.mem_cons_self
        · exact List.mem_cons_of_mem _ (ih rfl a ha)

/-- Attestations that are all present already are not added, but then there are some. -/
theorem addAttestations_some {present : List Bytes} {as added : List OtsAttestation}
    (h : addAttestations present as = (added, none)) (hne : as ≠ []) : added ≠ [] ∨ present ≠ [] := by
  cases as with
  | nil => exact absurd rfl hne
  | cons b bs =>
    rw [addAttestations] at h
    split at h
    · cases h
    · simp only [Prod.mk.injEq] at h
      rw [← h.1]
      split_ifs with hmem
      · exact .inr (List.ne_nil_of_mem hmem)
      · exact .inl (by simp)

theorem mergeOps_merged {m : Bytes} {into ops out : List (OtsOp × OtsTimestamp)} {e : Option String}
    (ih : ∀ o ∈ ops, ∀ t, t.Growing D → t.Full →
      Merged D t (mergeTimestamp t o.2).1 (mergeTimestamp t o.2).2)
    (hinto : ∀ o ∈ into, Branch D m o) (hops : ∀ o ∈ ops, Branch D m o)
    (h : mergeOps into ops = (out, e)) :
    (∀ o ∈ out, Branch D m o) ∧ (into ≠ [] ∨ ops ≠ [] → out ≠ []) := by
  induction ops generalizing into with
  | nil =>
    rw [mergeOps] at h
    cases h
    exact ⟨hinto, fun h => h.elim id fun hne => absurd rfl hne⟩
  | cons o ops ihOps =>
    obtain ⟨op, next⟩ := o
    have ihRest := fun x hx => ih x (List.mem_cons_of_mem _ hx)
    have hrest := fun x hx => hops x (List.mem_cons_of_mem _ hx)
    rw [mergeOps] at h
    split at h
    · have hgrown : ∀ o ∈ into ++ [(op, next)], Branch D m o := by
        intro o ho
        rcases List.mem_append.mp ho with ho | ho
        · exact hinto o ho
        · rw [List.mem_singleton.mp ho]
          exact hops _ List.mem_cons_self
      obtain ⟨hout, hsome⟩ := ihOps ihRest hgrown hrest h
      exact ⟨hout, fun _ => hsome (.inl (by simp))⟩
    · rename_i before hit after hlast
      have hsplit := lastBranch_eq_some hlast
      have hhit : Branch D m hit := hinto hit (by simp [hsplit])
      have hmerged := ih (op, next) List.mem_cons_self hit.2 (.of_sound hhit.sound hhit.full) hhit.full
      dsimp only at hmerged
      have hplaced : ∀ o ∈ before ++ (hit.1, (mergeTimestamp hit.2 next).1) :: after, Branch D m o := by
        intro o ho
        rcases List.mem_append.mp ho with ho | ho
        · exact hinto o (by simp [hsplit, ho])
        · rcases List.mem_cons.mp ho with rfl | ho
          · exact ⟨hhit.small, by rw [hmerged.msg]; exact hhit.applied, hmerged.growing.sound,
              hmerged.full hhit.full⟩
          · exact hinto o (by simp [hsplit, ho])
      split at h
      · rename_i merged e' hm
        rw [hm] at hplaced
        cases h
        exact ⟨hplaced, fun _ => by simp⟩
      · rename_i merged hm
        rw [hm] at hplaced
        obtain ⟨hout, hsome⟩ := ihOps ihRest hplaced hrest h
        exact ⟨hout, fun _ => hsome (.inl (by simp))⟩

/-- A merge keeps a timestamp sound, also one that throws. -/
theorem mergeTimestamp_merged (other : OtsTimestamp) (hother : other.Growing D) (hfull : other.Full)
    (t : OtsTimestamp) (ht : t.Growing D) :
    Merged D t (mergeTimestamp t other).1 (mergeTimestamp t other).2 := by
  induction other using OtsTimestamp.byOps generalizing t with
  | h m as os ih =>
    rw [mergeTimestamp]
    by_cases hmsg : t.msg ≠ m
    · rw [if_pos hmsg]
      exact ⟨rfl, ht, id, fun h => nomatch h⟩
    rw [if_neg hmsg]
    push Not at hmsg
    subst hmsg
    split
    · exact ⟨rfl, ht, id, fun h => nomatch h⟩
    rename_i present hpresent
    have hlength : present ≠ [] → t.attestations ≠ [] := by
      rintro hne hnil
      rw [hnil] at hpresent
      cases hpresent
      exact hne rfl
    have hatts : ∀ {added : List OtsAttestation} {e : Option String},
        addAttestations present as = (added, e) → ∀ a ∈ t.attestations ++ added, a.Read := by
      intro added e hadd a ha
      rcases List.mem_append.mp ha with ha | ha
      · exact ht.atts a ha
      · exact hother.atts a (addAttestations_mem hadd a ha)
    split
    · rename_i added e hadd
      have hgrow : (OtsTimestamp.mk t.msg (t.attestations ++ added) t.ops).Growing D :=
        ⟨hatts hadd, ht.branches⟩
      refine ⟨rfl, hgrow, fun hf => hgrow.full ?_, fun h => nomatch h⟩
      exact hf.some.imp (List.append_ne_nil_of_left_ne_nil · _) id
    · rename_i added hadd
      obtain ⟨merged, e, hm⟩ : ∃ merged e, mergeOps t.ops os = (merged, e) := ⟨_, _, rfl⟩
      obtain ⟨hbranches, hsome⟩ := mergeOps_merged
        (fun o ho t' ht' hf' => ih o ho
          (.of_sound (hother.branches o ho).sound (hother.branches o ho).full)
          (hother.branches o ho).full t' ht')
        ht.branches hother.branches hm
      rw [hm]
      have hgrow : (OtsTimestamp.mk t.msg (t.attestations ++ added) merged).Growing D :=
        ⟨hatts hadd, hbranches⟩
      refine ⟨rfl, hgrow, fun hf => hgrow.full ?_, fun _ => hgrow.full ?_⟩
      · exact hf.some.imp (List.append_ne_nil_of_left_ne_nil · _) fun h => hsome (.inl h)
      · -- the other timestamp has an item, and it is there now
        rcases hfull.some with h | h
        · rcases addAttestations_some hadd h with h | h
          · exact .inl (List.append_ne_nil_of_right_ne_nil _ h)
          · exact .inl (List.append_ne_nil_of_left_ne_nil (hlength h) _)
        · exact .inr (hsome (.inr h))

/-- The first node with a message takes a timestamp; the others stay. -/
theorem mergeAt_sound (msg : Bytes) (other : OtsTimestamp) (hother : other.Growing D)
    (hfull : other.Full) (t : OtsTimestamp) (ht : t.Sound D) (hf : t.Full) {t' : OtsTimestamp}
    {e : Option String} (h : mergeAt msg other t = some (t', e)) :
    t'.msg = t.msg ∧ t'.Sound D ∧ t'.Full := by
  induction t using OtsTimestamp.byOps generalizing t' e with
  | h m as os ih =>
    have hgrow := OtsTimestamp.Growing.of_sound ht hf
    rw [mergeAt] at h
    split_ifs at h
    · have hm := mergeTimestamp_merged other hother hfull _ hgrow
      rw [Option.some.inj h] at hm
      exact ⟨hm.msg, hm.growing.sound, hm.full hf⟩
    · obtain ⟨⟨out, e'⟩, hout, heq⟩ := Option.map_eq_some_iff.mp h
      cases heq
      have hops : ∀ {os out : List (OtsOp × OtsTimestamp)} {e : Option String},
          (∀ o ∈ os, ∀ t' e, mergeAt msg other o.2 = some (t', e) → o.2.Sound D → o.2.Full →
            t'.msg = o.2.msg ∧ t'.Sound D ∧ t'.Full) →
          (∀ o ∈ os, Branch D m o) → mergeAtOps msg other os = some (out, e) →
          (∀ o ∈ out, Branch D m o) ∧ out ≠ [] := by
        intro os
        induction os with
        | nil =>
          intro out e _ _ h
          cases h
        | cons o os ihOps =>
          intro out e ih hbranches h
          have hrest := fun x hx => hbranches x (List.mem_cons_of_mem _ hx)
          have ho := hbranches o List.mem_cons_self
          rw [mergeAtOps] at h
          split at h
          · rename_i merged e' hm
            cases h
            obtain ⟨hmsg, hsound, hfull⟩ := ih o List.mem_cons_self _ _ hm ho.sound ho.full
            refine ⟨fun x hx => ?_, by simp⟩
            rcases List.mem_cons.mp hx with rfl | hx
            · exact ⟨ho.small, by rw [hmsg]; exact ho.applied, hsound, hfull⟩
            · exact hrest x hx
          · obtain ⟨⟨out', e'⟩, hout, heq⟩ := Option.map_eq_some_iff.mp h
            cases heq
            obtain ⟨hall, _⟩ := ihOps (fun x hx => ih x (List.mem_cons_of_mem _ hx)) hrest hout
            refine ⟨fun x hx => ?_, by simp⟩
            rcases List.mem_cons.mp hx with rfl | hx
            · exact ho
            · exact hall x hx
      obtain ⟨hall, hsome⟩ := hops (fun o ho t' e h hs hf => ih o ho hs hf h) hgrow.branches hout
      have hgrow' : (OtsTimestamp.mk m as out).Growing D := ⟨hgrow.atts, hall⟩
      exact ⟨rfl, hgrow'.sound, hgrow'.full (.inr hsome)⟩

/-! ## The files of an anchor -/

variable (D) in
/-- The timestamps from which the files of an anchor are written: by `anchorNow` when a calendar
has answered, and by `upgradePendingAnchors` from a file that was stored. -/
inductive Held : OtsTimestamp → Prop
  | anchored (S : Setting) (root : Text) (nonce : Bytes) (answers : List Answer) {s : Stamp}
      (hs : stampTree D root nonce = .ok s) (hanswered : (collectAll D S s answers).answered ≠ []) :
      Held (s.file (collectAll D S s answers).commitment)
  | upgraded (S : Setting) (answer : ℕ → Option Bytes) {t file : OtsTimestamp} {ots : Bytes}
      (h : Held t) (hots : serializeOtsFile t = .ok ots) (hfile : parseOtsFile D ots = .ok file) :
      Held (upgradeAll D S answer file).file

theorem readResponse_sound {body msg : Bytes} {t : OtsTimestamp} (h : readResponse D body msg = .ok t) :
    t.Growing D ∧ t.Full := by
  unfold readResponse at h
  split_ifs at h
  obtain ⟨_, hsound, hfull⟩ := parseTimestamp_sound h
  exact ⟨.of_sound hsound hfull, hfull⟩

/-- The commitment grows, and once a calendar has answered it has an item. -/
structure Collected.Sound (D : Digests) (msg : Bytes) (c : Collected) : Prop where
  msg : c.commitment.msg = msg
  growing : c.commitment.Growing D
  full : c.answered ≠ [] → c.commitment.Full

theorem Collected.Sound.collect {S : Setting} {msg : Bytes} {c : Collected} (h : c.Sound D msg)
    (a : Answer) : (Ots.collect D S c a).Sound D msg := by
  unfold Ots.collect
  by_cases hallowed : calendarAllowed S a.calendar = true
  swap
  · rw [if_pos hallowed]
    exact h
  rw [if_neg (not_not_intro hallowed)]
  split
  · exact h
  split
  · exact h
  rename_i ts hts
  obtain ⟨hgrow, hfull⟩ := readResponse_sound hts
  have hmerged := mergeTimestamp_merged ts hgrow hfull c.commitment h.growing
  split
  · rename_i merged hm
    rw [hm] at hmerged
    exact ⟨hmerged.msg.trans h.msg, hmerged.growing, fun _ => hmerged.some rfl⟩
  · rename_i merged e hm
    rw [hm] at hmerged
    exact ⟨hmerged.msg.trans h.msg, hmerged.growing, fun ha => hmerged.full (h.full ha)⟩

theorem stampTree_eq_ok {root : Text} {nonce : Bytes} {s : Stamp} (h : stampTree D root nonce = .ok s) :
    s.digest.length = 32 ∧ s.nonce.length ≤ maxArg ∧ applyOp D (.append s.nonce) s.digest = .ok s.salted ∧
      ∃ msg, applyOp D .sha256 s.salted = .ok msg ∧ s.commitment = newTimestamp msg := by
  unfold stampTree at h
  split at h
  · cases h
  split_ifs at h
  obtain ⟨salted, hsalted, h⟩ := bind_eq_ok.mp h
  obtain ⟨msg, hmsg, h⟩ := bind_eq_ok.mp h
  cases h
  have hlen := (applyOp_eq_ok.1 hsalted).1
  refine ⟨D.sha256.size _, ?_, hsalted, msg, hmsg, rfl⟩
  simp only [applyOpRaw, List.length_append] at hlen
  unfold maxMsg at hlen
  unfold maxArg
  exact (Nat.le_add_left _ _).trans hlen

theorem file_sound {root : Text} {nonce : Bytes} {s : Stamp} (h : stampTree D root nonce = .ok s)
    {c : OtsTimestamp} (hmsg : c.msg = s.commitment.msg) (hsound : c.Sound D) (hfull : c.Full) :
    (s.file c).Sound D ∧ (s.file c).Full := by
  obtain ⟨_, hnonce, hsalted, msg, happly, hnew⟩ := stampTree_eq_ok h
  rw [hnew] at hmsg
  have hinner : (OtsTimestamp.mk s.salted [] [(.sha256, c)]).Growing D := by
    refine ⟨fun _ ha => (nomatch ha), fun o ho => ?_⟩
    rw [List.mem_singleton.mp ho]
    exact ⟨trivial, hmsg ▸ happly, hsound, hfull⟩
  have hinnerFull := hinner.full (.inr (by simp [OtsTimestamp.ops]))
  have houter : (s.file c).Growing D := by
    refine ⟨fun _ ha => (nomatch ha), fun o ho => ?_⟩
    rw [List.mem_singleton.mp ho]
    exact ⟨hnonce, hsalted, hinner.sound, hinnerFull⟩
  exact ⟨houter.sound, houter.full (.inr (by simp [Stamp.file, OtsTimestamp.ops]))⟩

/-- An upgrade keeps the file sound. -/
theorem upgradeOne_sound {S : Setting} {u : Upgrade} (hs : u.file.Sound D) (hf : u.file.Full)
    (p : PendingCommitment) (body : Option Bytes) :
    (upgradeOne D S u p body).file.msg = u.file.msg ∧ (upgradeOne D S u p body).file.Sound D ∧
      (upgradeOne D S u p body).file.Full := by
  have hnamed : ∀ (v : Upgrade) uri b, (v.named uri b).file = v.file := by
    intro v uri b
    unfold Upgrade.named
    split
    · rfl
    split
    · rfl
    split_ifs <;> rfl
  unfold upgradeOne
  by_cases hallowed : calendarAllowed S p.uri = true
  swap
  · rw [if_pos hallowed]
    exact ⟨rfl, hs, hf⟩
  rw [if_neg (not_not_intro hallowed)]
  split
  · exact ⟨rfl, hs, hf⟩
  split
  · exact ⟨rfl, hs, hf⟩
  rename_i upgraded hup
  obtain ⟨hgrow, hfull⟩ := readResponse_sound hup
  split
  · exact ⟨rfl, hs, hf⟩
  · rename_i merged e hm
    exact mergeAt_sound _ _ hgrow hfull _ hs hf hm
  · rename_i merged hm
    rw [hnamed]
    exact mergeAt_sound _ _ hgrow hfull _ hs hf hm

theorem upgradeAll_sound (S : Setting) (answer : ℕ → Option Bytes) {file : OtsTimestamp}
    (hs : file.Sound D) (hf : file.Full) :
    (upgradeAll D S answer file).file.msg = file.msg ∧ (upgradeAll D S answer file).file.Sound D ∧
      (upgradeAll D S answer file).file.Full := by
  unfold upgradeAll
  generalize (pendingCommitments file).mapIdx (fun k p => (p, answer k)) = asked
  have hrun : ∀ (asked : List (PendingCommitment × Option Bytes)) (u : Upgrade),
      u.file.Sound D → u.file.Full →
      (asked.foldl (fun u p => upgradeOne D S u p.1 p.2) u).file.msg = u.file.msg ∧
        (asked.foldl (fun u p => upgradeOne D S u p.1 p.2) u).file.Sound D ∧
        (asked.foldl (fun u p => upgradeOne D S u p.1 p.2) u).file.Full := by
    intro asked
    induction asked with
    | nil => exact fun u hs hf => ⟨rfl, hs, hf⟩
    | cons p asked ih =>
      intro u hs hf
      obtain ⟨hmsg, hs', hf'⟩ := upgradeOne_sound (S := S) hs hf p.1 p.2
      obtain ⟨hmsg', hrest⟩ := ih _ hs' hf'
      exact ⟨hmsg'.trans hmsg, hrest⟩
  exact hrun asked ⟨file, .empty⟩ hs hf

/-- Every timestamp from which a file is written is sound. -/
theorem Held.sound {t : OtsTimestamp} (h : Held D t) : t.msg.length = 32 ∧ t.Sound D ∧ t.Full := by
  cases h with
  | anchored S root nonce answers hs hanswered =>
    rename_i s
    have hcollected : ∀ (answers : List Answer) (c : Collected), c.Sound D s.commitment.msg →
        (answers.foldl (Ots.collect D S) c).Sound D s.commitment.msg := by
      intro answers
      induction answers with
      | nil => exact fun c hc => hc
      | cons a answers ih => exact fun c hc => ih _ (hc.collect a)
    obtain ⟨hdigest, _, _, msg, _, hnew⟩ := stampTree_eq_ok hs
    have hstart : Collected.Sound D s.commitment.msg ⟨s.commitment, []⟩ :=
      ⟨rfl, hnew ▸ .empty msg, fun h => absurd rfl h⟩
    have hc : (collectAll D S s answers).Sound D s.commitment.msg := hcollected answers _ hstart
    exact ⟨hdigest, file_sound hs hc.msg hc.growing.sound (hc.full hanswered)⟩
  | upgraded S answer h hots hfile =>
    obtain ⟨hmsg, hs, hf⟩ := parseOtsFile_sound hfile
    obtain ⟨hmsg', hs', hf'⟩ := upgradeAll_sound S answer hs hf
    exact ⟨hmsg' ▸ hmsg, hs', hf'⟩

variable (D) in
/-- The file of an anchor was written from such a timestamp. -/
def Anchor.Stored (a : Anchor) : Prop :=
  ∀ ots, a.ots = some ots → ∃ t, Held D t ∧ serializeOtsFile t = .ok ots

theorem anchorNow_stored {S : Setting} {root : Text} {nonce : Bytes} {answers : List Answer} {a : Anchor}
    (h : anchorNow D S root nonce answers = .ok a) : a.Stored D := by
  obtain ⟨s, hs, h⟩ := bind_eq_ok.mp h
  dsimp only at h
  split_ifs at h with hnone
  · cases h
    exact fun _ hots => nomatch hots
  · obtain ⟨ots, hots, h⟩ := bind_eq_ok.mp h
    cases h
    intro ots' heq
    cases heq
    exact ⟨_, .anchored S root nonce answers hs hnone, hots⟩

theorem upgradeAnchor_stored {S : Setting} {answer : ℕ → Option Bytes} {a a' : Anchor}
    (ha : a.Stored D) (h : upgradeAnchor D S answer a = .ok a') : a'.Stored D := by
  unfold upgradeAnchor at h
  split at h
  · cases h
    exact ha
  rename_i ots hots
  obtain ⟨t, ht, hwritten⟩ := ha ots hots
  obtain ⟨file, hfile, h⟩ := bind_eq_ok.mp h
  obtain ⟨ots', hots', h⟩ := bind_eq_ok.mp h
  have hstored : ∃ t, Held D t ∧ serializeOtsFile t = .ok ots' :=
    ⟨_, .upgraded S answer ht hwritten hfile, hots'⟩
  split at h
  · cases h
    intro _ heq
    cases heq
    exact hstored
  · split_ifs at h
    cases h
    intro _ heq
    cases heq
    exact hstored

/-- A stored file is accepted with exactly the attestations of its timestamp just when the
timestamp keeps the limits. -/
theorem stored_file_reads_back_iff {t : OtsTimestamp} (h : Held D t) : t.ReadsBack D ↔ t.Within := by
  obtain ⟨hmsg, hsound, hfull⟩ := h.sound
  exact readsBack_iff hmsg hsound hfull

/-! ## A deep answer -/

/-- `n` reversals of a message, and a block at their end. -/
def reversals : ℕ → Bytes → OtsTimestamp
  | 0, m => .mk m [.bitcoin 1] []
  | n + 1, m => .mk m [] [(.reverse, reversals n m.reverse)]

theorem msg_reversals (n : ℕ) (m : Bytes) : (reversals n m).msg = m := by
  cases n <;> rfl

theorem code_reversals (n : ℕ) (m : Bytes) : (reversals n m).code = (reversals n []).code := by
  induction n generalizing m with
  | zero => rfl
  | succ n ih =>
    rw [reversals, reversals, OtsTimestamp.code, OtsTimestamp.code, codesOf, codesOf, ih m.reverse]
    rfl

theorem code_reversals_length (n : ℕ) (m : Bytes) : (reversals n m).code.length = n + 11 := by
  induction n generalizing m with
  | zero => rfl
  | succ n ih =>
    have hcode : (reversals (n + 1) m).code = 0xf2 :: (reversals n m.reverse).code := rfl
    rw [hcode, List.length_cons, ih]

theorem depth_reversals (n : ℕ) (m : Bytes) : (reversals n m).depth = n := by
  induction n generalizing m with
  | zero => rfl
  | succ n ih =>
    rw [reversals, OtsTimestamp.depth, depthOf, depthOf, ih]
    omega

theorem entries_reversals (n : ℕ) (m : Bytes) : (reversals n m).entries = n + 1 := by
  induction n generalizing m with
  | zero => rfl
  | succ n ih =>
    rw [reversals, OtsTimestamp.entries, entriesOf, entriesOf, ih, List.length_nil]
    omega

/-- Reversals have one block for an attestation, whose height is written and read. -/
theorem reversals_attestation (n : ℕ) (m : Bytes) :
    ∀ a ∈ attestationsAt (reversals n m), a.attestation = .bitcoin 1 := by
  induction n generalizing m with
  | zero =>
    intro a ha
    rw [List.mem_singleton.mp ha]
  | succ n ih =>
    intro a ha
    rw [reversals, attestationsAt, attestationsOf, attestationsOf] at ha
    simp only [List.map_nil, List.nil_append, List.append_nil] at ha
    exact ih _ a ha

theorem sound_reversals (n : ℕ) (m : Bytes) (hm : m.length ≤ maxMsg) :
    (reversals n m).Sound D ∧ (reversals n m).Full := by
  induction n generalizing m with
  | zero =>
    have hgrow : (reversals 0 m).Growing D := by
      refine ⟨fun a ha => ?_, fun _ ho => (nomatch ho)⟩
      rw [List.mem_singleton.mp ha]
      exact trivial
    exact ⟨hgrow.sound, hgrow.full (.inl (by simp [reversals, OtsTimestamp.attestations]))⟩
  | succ n ih =>
    obtain ⟨hs, hf⟩ := ih m.reverse (by rwa [List.length_reverse])
    have hgrow : (reversals (n + 1) m).Growing D := by
      refine ⟨fun _ ha => (nomatch ha), fun o ho => ?_⟩
      rw [List.mem_singleton.mp ho]
      refine ⟨trivial, applyOp_eq_ok.2 ⟨?_, ?_⟩, hs, hf⟩
      · change m.reverse.length ≤ _
        rwa [List.length_reverse]
      · exact (msg_reversals n m.reverse).symm
    exact ⟨hgrow.sound, hgrow.full (.inr (by simp [reversals, OtsTimestamp.ops]))⟩

/-- A timestamp with one attestation. -/
def leaf (m : Bytes) (a : OtsAttestation) : OtsTimestamp := .mk m [a] []

theorem code_leaf (m : Bytes) (a : OtsAttestation) : (leaf m a).code = 0x00 :: a.code := rfl

theorem readResponse_leaf {a : OtsAttestation} (hread : a.Read) (hsafe : a.Safe) (hfits : a.Fits)
    (hlen : a.code.length < maxResponse) (m : Bytes) :
    readResponse D (0x00 :: a.code) m = .ok (leaf m a) := by
  have hmem : ∀ b ∈ attestationsAt (leaf m a), b.attestation = a := by
    intro b hb
    rw [List.mem_singleton.mp hb]
  have hgrow : (leaf m a).Growing D := by
    refine ⟨fun b hb => ?_, fun _ ho => (nomatch ho)⟩
    rw [List.mem_singleton.mp hb]
    exact hread
  have hfull : (leaf m a).Full := hgrow.full (.inl (by simp [leaf, OtsTimestamp.attestations]))
  have hparsed := (readTimestamp_exactly hgrow.sound hfull (fun b hb => (hmem b hb).symm ▸ hsafe)
    (fuelFor (leaf m a).code) 0 0 [] (le_refl _)).of_cond
      ⟨Nat.zero_le maxDepth, (by decide : 1 ≤ maxNodes), fun b hb => (hmem b hb).symm ▸ hfits⟩
  rw [List.append_nil, code_leaf] at hparsed
  unfold readResponse
  rw [if_neg (by
    rw [List.length_cons]
    omega)]
  exact bind_eq_ok.mpr ⟨_, hparsed, rfl⟩

/-- One attestation that can be written is merged into a node with its message. -/
theorem mergeTimestamp_leaf {m : Bytes} {as : List OtsAttestation} (os : List (OtsOp × OtsTimestamp))
    {a : OtsAttestation} (hsafe : ∀ b ∈ as, b.Safe) (ha : a.Safe) :
    ∃ added, mergeTimestamp (.mk m as os) (leaf m a) = (.mk m (as ++ added) os, none) ∧
      ∀ b ∈ added, b = a := by
  have hmsg : ¬ (OtsTimestamp.mk m as os).msg ≠ m := not_not_intro rfl
  have hpresent : as.mapM attestationBytes = .ok (as.map OtsAttestation.code) :=
    (Exactly.mapM fun b (_ : b ∈ as) => attestationBytes_exactly b).of_cond hsafe
  have hadd : addAttestations (as.map OtsAttestation.code) [a] =
      (if a.code ∈ as.map OtsAttestation.code then [] else [a], none) := by
    rw [addAttestations, (attestationBytes_exactly a).of_cond ha]
    simp only [addAttestations]
  refine ⟨if a.code ∈ as.map OtsAttestation.code then [] else [a], ?_, fun b hb => ?_⟩
  · rw [leaf, mergeTimestamp, if_neg hmsg]
    have hatts : (OtsTimestamp.mk m as os).attestations = as := rfl
    rw [hatts, hpresent]
    simp only [hadd]
    rfl
  · split_ifs at hb
    · cases hb
    · exact List.mem_singleton.mp hb

theorem one_safe : (OtsAttestation.bitcoin 1).Safe := by
  change 1 ≤ maxSafe
  decide

theorem readResponse_reversals {n : ℕ} (hn : n ≤ maxDepth) {m : Bytes} (hm : m.length ≤ maxMsg) :
    readResponse D (reversals n []).code m = .ok (reversals n m) := by
  obtain ⟨hs, hf⟩ := sound_reversals (D := D) n m hm
  have hsafe : (reversals n m).Safe := fun a ha => by
    rw [reversals_attestation n m a ha]
    exact one_safe
  have hfits : (reversals n m).Fits := fun a ha => by
    rw [reversals_attestation n m a ha]
    exact trivial
  unfold maxDepth at hn
  have hread := (readTimestamp_exactly hs hf hsafe (fuelFor (reversals n m).code) 0 0 []
    (le_refl _)).of_cond ⟨by
      rw [depth_reversals]
      unfold maxDepth
      omega, by
      rw [entries_reversals]
      unfold maxNodes
      omega, hfits⟩
  rw [List.append_nil, msg_reversals] at hread
  have hlen := code_reversals_length n m
  unfold readResponse
  rw [← code_reversals n m, if_neg (by
    rw [hlen]
    unfold maxResponse
    omega)]
  exact bind_eq_ok.mpr ⟨_, hread, rfl⟩

/-- A root and a nonce are stamped whatever the hash functions give. -/
theorem stamped (D : Digests) : ∃ s m,
    stampTree D (List.replicate 64 (ch '0')) (List.replicate 16 0) = .ok s ∧
      s.commitment = newTimestamp m ∧ m.length = 32 := by
  have hsize : ∀ bs : Bytes, (applyOpRaw D (.append (List.replicate 16 0)) (D.sha256.digest bs)).length ≤
      maxMsg := by
    intro bs
    change (D.sha256.digest bs ++ List.replicate 16 0).length ≤ _
    rw [List.length_append, D.sha256.size, List.length_replicate]
    decide
  have hhash : ∀ bs : Bytes, (applyOpRaw D .sha256 bs).length ≤ maxMsg := by
    intro bs
    change (D.sha256.digest bs).length ≤ _
    rw [D.sha256.size]
    decide
  unfold stampTree rootBytes
  rw [if_pos (by decide)]
  dsimp only
  rw [if_neg (by decide)]
  exact ⟨_, _, bind_eq_ok.mpr ⟨_, applyOp_eq_ok.2 ⟨hsize _, rfl⟩,
    bind_eq_ok.mpr ⟨_, applyOp_eq_ok.2 ⟨hhash _, rfl⟩, rfl⟩⟩, rfl, D.sha256.size _⟩

/-- The address of a calendar that the server knows. -/
def poolA : Text := js "https://a.pool.opentimestamps.org"

def oneCalendar : Setting where
  newUrl := fun t => if t = poolA then
    some ⟨js "https:", js "a.pool.opentimestamps.org", [], [], [], []⟩ else none
  calendars := defaultCalendars
  production := true

theorem poolA_allowed : calendarAllowed oneCalendar poolA = true := by decide

/-- The calendar answers with a timestamp that is merged into the empty commitment. -/
theorem collectAll_one {s : Stamp} {m body : Bytes} {ts : OtsTimestamp}
    (hnew : s.commitment = newTimestamp m) (hread : readResponse D body m = .ok ts)
    (hmerge : mergeTimestamp (newTimestamp m) ts = (ts, none)) :
    collectAll D oneCalendar s [⟨poolA, some body⟩] = ⟨ts, [poolA]⟩ := by
  have hmsg : (newTimestamp m).msg = m := rfl
  rw [collectAll, List.foldl_cons, List.foldl_nil, collect,
    if_neg (not_not_intro poolA_allowed), hnew]
  simp only [hmsg, hread, hmerge]
  rfl

/-- The file that is written after the calendar has answered with reversals. -/
theorem held_reversals (D : Digests) {n : ℕ} (hpos : 0 < n) (hn : n ≤ maxDepth) :
    ∃ (s : Stamp) (m : Bytes), Held D (s.file (reversals n m)) := by
  obtain ⟨n, rfl⟩ : ∃ k, n = k + 1 := ⟨n - 1, by omega⟩
  obtain ⟨s, m, hs, hnew, hm⟩ := stamped D
  have hread := readResponse_reversals (D := D) hn (m := m) (by
    rw [hm]
    decide)
  have hmerge : mergeTimestamp (newTimestamp m) (reversals (n + 1) m) = (reversals (n + 1) m, none) := by
    have hmsg : ¬ (newTimestamp m).msg ≠ m := not_not_intro rfl
    rw [reversals, mergeTimestamp, if_neg hmsg]
    rfl
  have hcollect := collectAll_one hnew hread hmerge
  have hheld := Held.anchored oneCalendar _ _ [⟨poolA, some (reversals (n + 1) []).code⟩] hs (by
    rw [hcollect]
    simp)
  rw [hcollect] at hheld
  exact ⟨s, m, hheld⟩

/-- 255 reversals are accepted from a calendar, but below the two operations of the file they are
too deep to be read back. -/
theorem deep_answer_is_not_read_back : ¬ ∃ D : Digests, ∀ t, Held D t → t.ReadsBack D := by
  rintro ⟨D, hall⟩
  obtain ⟨s, m, hheld⟩ := held_reversals D (n := 255) (by omega) (by decide)
  have hwithin := (stored_file_reads_back_iff hheld).mp (hall _ hheld)
  have hdepth := hwithin.depth
  simp only [Stamp.file, OtsTimestamp.depth, depthOf, depth_reversals] at hdepth
  unfold maxDepth at hdepth
  omega

/-- Hash functions that give zeros. -/
def zeroDigests : Digests where
  sha256 := ⟨fun _ => List.replicate 32 0, fun _ => rfl⟩
  sha1 := fun _ => List.replicate 20 0
  ripemd160 := fun _ => List.replicate 20 0
  sha1_size := fun _ => rfl
  ripemd160_size := fun _ => rfl

/-- Two reversals are read back. -/
theorem stored_file_reads_back_sample : ∃ (D : Digests) (t : OtsTimestamp), Held D t ∧ t.ReadsBack D := by
  obtain ⟨s, m, hheld⟩ := held_reversals zeroDigests (n := 2) (by omega) (by decide)
  refine ⟨zeroDigests, _, hheld, (stored_file_reads_back_iff hheld).mpr ⟨?_, ?_, ?_, ?_⟩⟩
  · simp only [Stamp.file, OtsTimestamp.entries, entriesOf, entries_reversals]
    decide
  · simp only [Stamp.file, OtsTimestamp.depth, depthOf, depth_reversals]
    decide
  · intro a ha
    rw [reversals_attestation 2 m a (by simpa [Stamp.file, attestationsAt, attestationsOf] using ha)]
    exact one_safe
  · intro a ha
    rw [reversals_attestation 2 m a (by simpa [Stamp.file, attestationsAt, attestationsOf] using ha)]
    exact trivial

end Klick.Ots
