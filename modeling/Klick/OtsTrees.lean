-- Timestamps that are built, read and merged in any order (`newTimestamp`, `addOp`, the reader
-- and `mergeTimestamp` of `lib/ledger/ots.ts`): every message is the one that the operation
-- above it makes.
import Klick.OtsFiles

open Js

namespace Klick.Ots

variable {D : Digests}

/-! ## The last branch of an operation -/

/-- The branches of an operation, by its key. -/
def branches (key : Text) (os : List (OtsOp × OtsTimestamp)) : List (OtsOp × OtsTimestamp) :=
  os.filter fun o => opKey o.1 = key

/-- What the map of `mergeTimestamp` has for a key: of several branches the last. -/
def lastOf (key : Text) (os : List (OtsOp × OtsTimestamp)) : Option OtsTimestamp :=
  (branches key os).getLast?.map (·.2)

theorem branches_append (key : Text) (os ps : List (OtsOp × OtsTimestamp)) :
    branches key (os ++ ps) = branches key os ++ branches key ps := List.filter_append ..

theorem branches_cons_of_ne {key : Text} {o : OtsOp × OtsTimestamp} (h : opKey o.1 ≠ key)
    (os : List (OtsOp × OtsTimestamp)) : branches key (o :: os) = branches key os :=
  List.filter_cons_of_neg (by simpa using h)

theorem branches_cons_of_eq {key : Text} {o : OtsOp × OtsTimestamp} (h : opKey o.1 = key)
    (os : List (OtsOp × OtsTimestamp)) : branches key (o :: os) = o :: branches key os :=
  List.filter_cons_of_pos (by simpa using h)

theorem lastBranch_eq_none {key : Text} {os : List (OtsOp × OtsTimestamp)} :
    lastBranch key os = none ↔ branches key os = [] := by
  induction os with
  | nil => simp [lastBranch, branches]
  | cons o os ih =>
    rw [lastBranch]
    cases hlast : lastBranch key os with
    | some r =>
      have hne : branches key os ≠ [] := fun hnil => by rw [ih.mpr hnil] at hlast; cases hlast
      by_cases ho : opKey o.1 = key
      · simp [branches_cons_of_eq ho]
      · simp [branches_cons_of_ne ho, hne]
    | none =>
      have hnil := ih.mp hlast
      by_cases ho : opKey o.1 = key
      · simp [branches_cons_of_eq ho, ho]
      · simp [branches_cons_of_ne ho, ho, hnil]

/-- The last branch has the key, and no branch behind it does. -/
theorem lastBranch_spec {key : Text} {os before after : List (OtsOp × OtsTimestamp)}
    {hit : OtsOp × OtsTimestamp} (h : lastBranch key os = some (before, hit, after)) :
    os = before ++ hit :: after ∧ opKey hit.1 = key ∧ branches key after = [] := by
  refine ⟨lastBranch_eq_some h, ?_⟩
  induction os generalizing before with
  | nil => cases h
  | cons o os ih =>
    rw [lastBranch] at h
    split at h
    · rename_i before' hit' after' hlast
      cases h
      exact ih hlast
    · rename_i hnone
      split_ifs at h with ho
      cases h
      exact ⟨ho, lastBranch_eq_none.mp hnone⟩

/-- The last branch, with another tree below its operation. -/
theorem lastOf_placed {key : Text} {os before after : List (OtsOp × OtsTimestamp)}
    {hit : OtsOp × OtsTimestamp} (h : lastBranch key os = some (before, hit, after))
    (t : OtsTimestamp) : lastOf key (before ++ (hit.1, t) :: after) = some t := by
  obtain ⟨-, hkey, hafter⟩ := lastBranch_spec h
  unfold lastOf
  rw [branches_append, branches_cons_of_eq (o := (hit.1, t)) hkey, hafter, List.getLast?_concat]
  rfl

theorem lastOf_eq {key : Text} {os before after : List (OtsOp × OtsTimestamp)}
    {hit : OtsOp × OtsTimestamp} (h : lastBranch key os = some (before, hit, after)) :
    lastOf key os = some hit.2 := by
  have hplaced := lastOf_placed h hit.2
  rw [← lastBranch_eq_some h] at hplaced
  exact hplaced

/-- The branches of the other operations stay. -/
theorem lastOf_placed_of_ne {key other : Text} {os before after : List (OtsOp × OtsTimestamp)}
    {hit : OtsOp × OtsTimestamp} (h : lastBranch key os = some (before, hit, after))
    (hne : key ≠ other) (t : OtsTimestamp) :
    lastOf other (before ++ (hit.1, t) :: after) = lastOf other os := by
  obtain ⟨hsplit, hkey, -⟩ := lastBranch_spec h
  have hhit : opKey hit.1 ≠ other := fun heq => hne (hkey.symm.trans heq)
  unfold lastOf
  rw [hsplit, branches_append, branches_append, branches_cons_of_ne (o := (hit.1, t)) hhit,
    branches_cons_of_ne hhit]

/-- A branch of another operation at the end does not matter. -/
theorem lastOf_concat_of_ne {key : Text} {o : OtsOp × OtsTimestamp} (h : opKey o.1 ≠ key)
    (os : List (OtsOp × OtsTimestamp)) : lastOf key (os ++ [o]) = lastOf key os := by
  unfold lastOf
  rw [branches_append, branches_cons_of_ne h]
  simp [branches]

theorem lastOf_eq_none {key : Text} {os : List (OtsOp × OtsTimestamp)} :
    lastOf key os = none ↔ branches key os = [] := by
  unfold lastOf
  rw [Option.map_eq_none_iff, List.getLast?_eq_none_iff]

/-! ## What a merge does to the branches -/

/-- **What every branch has, every branch has after the merge**, when a merge with the branch of
an operation keeps it. -/
theorem mergeOps_all {Q : OtsOp × OtsTimestamp → Prop} {into ops : List (OtsOp × OtsTimestamp)}
    (hinto : ∀ o ∈ into, Q o) (hops : ∀ o ∈ ops, Q o)
    (hmerge : ∀ o ∈ ops, ∀ x, Q x → opKey x.1 = opKey o.1 → Q (x.1, (mergeTimestamp x.2 o.2).1)) :
    ∀ o ∈ (mergeOps into ops).1, Q o := by
  induction ops generalizing into with
  | nil =>
    rw [mergeOps]
    exact hinto
  | cons o ops ih =>
    obtain ⟨op, next⟩ := o
    rw [List.forall_mem_cons] at hops hmerge
    rw [mergeOps]
    cases hlast : lastBranch (opKey op) into with
    | none =>
      dsimp only
      refine ih ?_ hops.2 hmerge.2
      intro x hx
      rcases List.mem_append.mp hx with hx | hx
      · exact hinto x hx
      · rw [List.mem_singleton.mp hx]
        exact hops.1
    | some r =>
      obtain ⟨before, hit, after⟩ := r
      obtain ⟨hsplit, hkey, -⟩ := lastBranch_spec hlast
      have hhit : Q hit := hinto hit (by simp [hsplit])
      have hplaced : ∀ x ∈ before ++ (hit.1, (mergeTimestamp hit.2 next).1) :: after, Q x := by
        intro x hx
        rw [List.mem_append, List.mem_cons] at hx
        rcases hx with hx | rfl | hx
        · exact hinto x (by simp [hsplit, hx])
        · exact hmerge.1 hit hhit hkey
        · exact hinto x (by simp [hsplit, hx])
      dsimp only
      cases hm : mergeTimestamp hit.2 next with
      | mk merged e =>
        rw [hm] at hplaced
        cases e with
        | some e => exact hplaced
        | none => exact ih hplaced hops.2 hmerge.2

/-- **The last branch of an operation keeps what the merges with its branches keep.** -/
theorem mergeOps_last {Q : OtsTimestamp → Prop} {key : Text} {into ops : List (OtsOp × OtsTimestamp)}
    (hinto : ∃ t, lastOf key into = some t ∧ Q t)
    (hmerge : ∀ o ∈ ops, opKey o.1 = key → ∀ t, Q t → Q (mergeTimestamp t o.2).1) :
    ∃ t, lastOf key (mergeOps into ops).1 = some t ∧ Q t := by
  induction ops generalizing into with
  | nil =>
    rw [mergeOps]
    exact hinto
  | cons o ops ih =>
    obtain ⟨op, next⟩ := o
    obtain ⟨t, ht, hq⟩ := hinto
    rw [List.forall_mem_cons] at hmerge
    rw [mergeOps]
    cases hlast : lastBranch (opKey op) into with
    | none =>
      have hne : opKey op ≠ key := by
        rintro rfl
        rw [lastOf_eq_none.mpr (lastBranch_eq_none.mp hlast)] at ht
        cases ht
      refine ih ⟨t, ?_, hq⟩ hmerge.2
      rw [lastOf_concat_of_ne (o := (op, next)) hne]
      exact ht
    | some r =>
      obtain ⟨before, hit, after⟩ := r
      have hplaced : ∃ x, lastOf key (before ++ (hit.1, (mergeTimestamp hit.2 next).1) :: after) =
          some x ∧ Q x := by
        by_cases hne : opKey op = key
        · subst hne
          rw [lastOf_eq hlast] at ht
          cases ht
          exact ⟨_, lastOf_placed hlast _, hmerge.1 rfl _ hq⟩
        · exact ⟨t, (lastOf_placed_of_ne hlast hne _).trans ht, hq⟩
      dsimp only
      cases hm : mergeTimestamp hit.2 next with
      | mk merged e =>
        rw [hm] at hplaced
        cases e with
        | some e => exact hplaced
        | none => exact ih hplaced hmerge.2

/-! ## What a merge does to a timestamp -/

theorem addAttestations_spec {present : List Bytes} {as added : List OtsAttestation}
    {e : Option String} (h : addAttestations present as = (added, e)) :
    added.Sublist as ∧ ∀ a ∈ added, ∀ b, attestationBytes a = .ok b → b ∉ present := by
  induction as generalizing added e with
  | nil =>
    cases h
    simp
  | cons a as ih =>
    rw [addAttestations] at h
    cases ha : attestationBytes a with
    | error e' =>
      rw [ha] at h
      cases h
      simp
    | ok b =>
      rw [ha] at h
      obtain ⟨hsub, hnew⟩ := ih (Prod.mk.eta).symm
      dsimp only at h
      rw [Prod.mk.injEq] at h
      rw [← h.1]
      split_ifs with hb
      · exact ⟨hsub.cons a, hnew⟩
      · refine ⟨hsub.cons_cons a, ?_⟩
        rw [List.forall_mem_cons]
        refine ⟨fun b' hb' => ?_, hnew⟩
        rw [ha] at hb'
        cases hb'
        exact hb

/-- What is written of attestations, attestation by attestation. -/
theorem mem_of_mapM {as : List OtsAttestation} {present : List Bytes}
    (h : as.mapM attestationBytes = .ok present) :
    ∀ a ∈ as, ∃ b ∈ present, attestationBytes a = .ok b := by
  induction as generalizing present with
  | nil => simp
  | cons a as ih =>
    rw [List.mapM_cons] at h
    obtain ⟨b, hb, h⟩ := bind_eq_ok.mp h
    obtain ⟨bs, hbs, h⟩ := bind_eq_ok.mp h
    cases h
    rw [List.forall_mem_cons]
    refine ⟨⟨b, List.mem_cons_self, hb⟩, fun a' ha' => ?_⟩
    obtain ⟨b', hmem, hb'⟩ := ih hbs a' ha'
    exact ⟨b', List.mem_cons_of_mem _ hmem, hb'⟩

/-- **A merge leaves the message and adds attestations that were not there**, and it leaves the
branches or merges them, whether it throws or not. -/
theorem mergeTimestamp_fst (t : OtsTimestamp) (m : Bytes) (as : List OtsAttestation)
    (os : List (OtsOp × OtsTimestamp)) :
    ∃ added ops, (mergeTimestamp t (.mk m as os)).1 = .mk t.msg (t.attestations ++ added) ops ∧
      added.Sublist as ∧ (∀ a ∈ added, a ∉ t.attestations) ∧
      (ops = t.ops ∨ ops = (mergeOps t.ops os).1) := by
  have hsame : ∃ added ops, t = .mk t.msg (t.attestations ++ added) ops ∧
      added.Sublist as ∧ (∀ a ∈ added, a ∉ t.attestations) ∧
      (ops = t.ops ∨ ops = (mergeOps t.ops os).1) := by
    refine ⟨[], t.ops, ?_, List.nil_sublist _, by simp, .inl rfl⟩
    rw [List.append_nil]
    cases t
    rfl
  rw [mergeTimestamp]
  split_ifs with hmsg
  · exact hsame
  cases hpresent : t.attestations.mapM attestationBytes with
  | error e => exact hsame
  | ok present =>
    dsimp only
    cases hadd : addAttestations present as with
    | mk added e =>
      obtain ⟨hsub, hnew⟩ := addAttestations_spec hadd
      have hfresh : ∀ a ∈ added, a ∉ t.attestations := by
        intro a ha hmem
        obtain ⟨b, hb, hbytes⟩ := mem_of_mapM hpresent a hmem
        exact hnew a ha b hbytes hb
      cases e with
      | some e => exact ⟨added, t.ops, rfl, hsub, hfresh, .inl rfl⟩
      | none => exact ⟨added, _, rfl, hsub, hfresh, .inr rfl⟩

theorem msg_mergeTimestamp (t o : OtsTimestamp) : (mergeTimestamp t o).1.msg = t.msg := by
  obtain ⟨m, as, os⟩ := o
  obtain ⟨added, ops, heq, -⟩ := mergeTimestamp_fst t m as os
  rw [heq]
  rfl

/-! ## Every message follows -/

variable (D) in
/-- A branch whose message is what its operation makes of a message, and that is sound. -/
structure Follows (m : Bytes) (o : OtsOp × OtsTimestamp) : Prop where
  small : o.1.Small
  applied : applyOp D o.1 m = .ok o.2.msg
  sound : o.2.Sound D

theorem sound_mk {m : Bytes} {as : List OtsAttestation} {os : List (OtsOp × OtsTimestamp)} :
    (OtsTimestamp.mk m as os).Sound D ↔ (∀ a ∈ as, a.Read) ∧ ∀ o ∈ os, Follows D m o := by
  constructor
  · rintro ⟨hatts, hmsgs, hops⟩
    exact ⟨hatts, fun o ho => ⟨(hmsgs o ho).1, (hmsgs o ho).2, hops o ho⟩⟩
  · rintro ⟨hatts, hbranches⟩
    exact .mk hatts (fun o ho => ⟨(hbranches o ho).small, (hbranches o ho).applied⟩)
      fun o ho => (hbranches o ho).sound

/-- A merge keeps a timestamp sound, also one that throws. -/
theorem sound_mergeTimestamp (other : OtsTimestamp) (hother : other.Sound D) (t : OtsTimestamp)
    (ht : t.Sound D) : (mergeTimestamp t other).1.Sound D := by
  induction other using OtsTimestamp.byOps generalizing t with
  | h m as os ih =>
    by_cases hmsg : t.msg = m
    · obtain ⟨added, ops, heq, hsub, -, hops⟩ := mergeTimestamp_fst t m as os
      obtain ⟨hread, hbranches⟩ := sound_mk.mp hother
      obtain ⟨tm, tas, tos⟩ := t
      obtain ⟨htread, htbranches⟩ := sound_mk.mp ht
      rw [heq, sound_mk]
      constructor
      · intro a ha
        rcases List.mem_append.mp ha with ha | ha
        · exact htread a ha
        · exact hread a (hsub.subset ha)
      · rcases hops with rfl | rfl
        · exact htbranches
        · change tm = m at hmsg
          subst hmsg
          apply mergeOps_all htbranches hbranches
          intro o ho x hx _
          refine ⟨hx.small, ?_, ih o ho (hbranches o ho).sound x.2 hx.sound⟩
          rw [msg_mergeTimestamp]
          exact hx.applied
    · rw [mergeTimestamp, if_pos hmsg]
      exact ht

/-! ## Building a tree -/

variable (D) in
/-- `addOp`: the timestamp after it and the node that it gives, the first branch of the operation
or a new one. -/
def addOp (ts : OtsTimestamp) (op : OtsOp) : Except String (OtsTimestamp × OtsTimestamp) :=
  match ts.ops.find? fun o => opKey o.1 = opKey op with
  | some hit => .ok (ts, hit.2)
  | none => do
    let msg ← applyOp D op ts.msg
    return (.mk ts.msg ts.attestations (ts.ops ++ [(op, newTimestamp msg)]), newTimestamp msg)

/-- A change at one node of a timestamp. -/
inductive At (change : OtsTimestamp → OtsTimestamp → Prop) : OtsTimestamp → OtsTimestamp → Prop
  | here {t t' : OtsTimestamp} : change t t' → At change t t'
  | branch {m : Bytes} {as : List OtsAttestation} {before after : List (OtsOp × OtsTimestamp)}
      {op : OtsOp} {next next' : OtsTimestamp} : At change next next' →
      At change (.mk m as (before ++ (op, next) :: after)) (.mk m as (before ++ (op, next') :: after))

variable (D) in
/-- The timestamps that are built from new ones, read, and merged, in any order and at any node. A
timestamp that was merged into another one is not used again. -/
inductive Obtained : OtsTimestamp → Prop
  | new (msg : Bytes) : Obtained (newTimestamp msg)
  | parsed {bs msg : Bytes} {t : OtsTimestamp} : parseTimestamp D bs msg = .ok t → Obtained t
  | file {bs : Bytes} {t : OtsTimestamp} : parseOtsFile D bs = .ok t → Obtained t
  | node {m : Bytes} {as : List OtsAttestation} {os : List (OtsOp × OtsTimestamp)} {op : OtsOp}
      {next : OtsTimestamp} : Obtained (.mk m as os) → (op, next) ∈ os → Obtained next
  | added {t t' : OtsTimestamp} (op : OtsOp) : Obtained t →
      At (fun n n' => ∃ next, addOp D n op = .ok (n', next)) t t' → Obtained t'
  | merged {t t' other : OtsTimestamp} : Obtained t → Obtained other →
      At (fun n n' => ∃ e, mergeTimestamp n other = (n', e)) t t' → Obtained t'

/-- A change that keeps a node sound keeps the tree sound. -/
theorem At.sound {change : OtsTimestamp → OtsTimestamp → Prop} {t t' : OtsTimestamp}
    (h : At change t t')
    (hchange : ∀ n n', change n n' → n.Sound D → n'.Sound D ∧ n'.msg = n.msg) (ht : t.Sound D) :
    t'.Sound D ∧ t'.msg = t.msg := by
  induction h with
  | here h => exact hchange _ _ h ht
  | @branch m as before after op next next' _ ih =>
    obtain ⟨hatts, hbranches⟩ := sound_mk.mp ht
    have hnext := hbranches (op, next) (by simp)
    obtain ⟨hsound, hmsg⟩ := ih hnext.sound
    refine ⟨sound_mk.mpr ⟨hatts, fun o ho => ?_⟩, rfl⟩
    rw [List.mem_append, List.mem_cons] at ho
    rcases ho with ho | rfl | ho
    · exact hbranches o (by simp [ho])
    · exact ⟨hnext.small, hnext.applied.trans (congrArg _ hmsg.symm), hsound⟩
    · exact hbranches o (by simp [ho])

/-- An operation that was applied has a short argument. -/
theorem small_of_applyOp {op : OtsOp} {msg out : Bytes} (h : applyOp D op msg = .ok out) :
    op.Small := by
  obtain ⟨hlen, -⟩ := applyOp_eq_ok.mp h
  have hmax : maxMsg = maxArg := rfl
  cases op with
  | append arg =>
    change (msg ++ arg).length ≤ maxMsg at hlen
    rw [List.length_append] at hlen
    change arg.length ≤ maxArg
    omega
  | prepend arg =>
    change (arg ++ msg).length ≤ maxMsg at hlen
    rw [List.length_append] at hlen
    change arg.length ≤ maxArg
    omega
  | sha256 => exact trivial
  | sha1 => exact trivial
  | ripemd160 => exact trivial
  | reverse => exact trivial
  | hexlify => exact trivial

theorem sound_new (msg : Bytes) : (newTimestamp msg).Sound D := (OtsTimestamp.Growing.empty msg).sound

theorem addOp_sound {t t' next : OtsTimestamp} {op : OtsOp} (h : addOp D t op = .ok (t', next))
    (ht : t.Sound D) : t'.Sound D ∧ t'.msg = t.msg := by
  unfold addOp at h
  split at h
  · cases h
    exact ⟨ht, rfl⟩
  · obtain ⟨msg, hmsg, h⟩ := bind_eq_ok.mp h
    cases h
    obtain ⟨m, as, os⟩ := t
    obtain ⟨hatts, hbranches⟩ := sound_mk.mp ht
    refine ⟨sound_mk.mpr ⟨hatts, fun o ho => ?_⟩, rfl⟩
    rcases List.mem_append.mp ho with ho | ho
    · exact hbranches o ho
    · rw [List.mem_singleton.mp ho]
      exact ⟨small_of_applyOp hmsg, hmsg, sound_new msg⟩

/-- **In every timestamp that is obtained, each message is the one that its operation makes of the
message above it.** -/
theorem Obtained.sound {t : OtsTimestamp} (h : Obtained D t) : t.Sound D := by
  induction h with
  | new msg => exact sound_new msg
  | parsed h => exact (parseTimestamp_sound h).2.1
  | file h => exact (parseOtsFile_sound h).2.1
  | node _ hmem ih => exact ((sound_mk.mp ih).2 _ hmem).sound
  | added op _ hat ih =>
    refine (hat.sound ?_ ih).1
    rintro n n' ⟨next, hadd⟩ hn
    exact addOp_sound hadd hn
  | @merged t t' other _ _ hat ih ihOther =>
    refine (hat.sound ?_ ih).1
    rintro n n' ⟨e, hmerge⟩ hn
    have hfst : n' = (mergeTimestamp n other).1 := by rw [hmerge]
    rw [hfst]
    exact ⟨sound_mergeTimestamp other ihOther n hn, msg_mergeTimestamp n other⟩

end Klick.Ots
