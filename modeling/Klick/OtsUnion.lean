-- Merging two timestamps of one message (`mergeTimestamp` of `lib/ledger/ots.ts`): the result
-- has the attestations of both, each with its own path, and nothing else. A height that cannot
-- be written makes the merge throw.
import Klick.JournalRecovery
import Klick.OtsTrees

open Js

namespace Klick.Ots

variable {D : Digests}

/-! ## Attestations with their paths -/

mutual
/-- The attestations with the operations that lead to them, and with their messages. -/
def pathsAt : OtsTimestamp → List (List OtsOp × AttestationAt)
  | .mk msg attestations ops => attestations.map (fun a => ([], ⟨msg, a⟩)) ++ pathsOf ops
def pathsOf : List (OtsOp × OtsTimestamp) → List (List OtsOp × AttestationAt)
  | [] => []
  | (op, next) :: ops => (pathsAt next).map (fun e => (op :: e.1, e.2)) ++ pathsOf ops
end

/-- The paths of a branch. -/
def pathsBelow (o : OtsOp × OtsTimestamp) : List (List OtsOp × AttestationAt) :=
  (pathsAt o.2).map fun e => (o.1 :: e.1, e.2)

theorem pathsOf_eq (os : List (OtsOp × OtsTimestamp)) : pathsOf os = os.flatMap pathsBelow := by
  induction os with
  | nil => rfl
  | cons o os ih =>
    rw [pathsOf, ih, List.flatMap_cons]
    rfl

theorem pathsOf_append (os ps : List (OtsOp × OtsTimestamp)) :
    pathsOf (os ++ ps) = pathsOf os ++ pathsOf ps := by
  rw [pathsOf_eq, pathsOf_eq, pathsOf_eq, List.flatMap_append]

theorem mem_pathsAt {m : Bytes} {as : List OtsAttestation} {os : List (OtsOp × OtsTimestamp)}
    {e : List OtsOp × AttestationAt} :
    e ∈ pathsAt (.mk m as os) ↔ (∃ a ∈ as, ([], ⟨m, a⟩) = e) ∨ e ∈ pathsOf os := by
  rw [pathsAt, List.mem_append, List.mem_map]

/-- Without their paths, they are those that `attestations` lists. -/
theorem map_snd_pathsAt (t : OtsTimestamp) : (pathsAt t).map (·.2) = attestationsAt t := by
  induction t using OtsTimestamp.byOps with
  | h m as os ih =>
    rw [pathsAt, attestationsAt, List.map_append, List.map_map, pathsOf_eq, attestationsOf_eq,
      List.map_flatMap]
    congr 1
    apply List.flatMap_congr
    intro o ho
    rw [← ih o ho, pathsBelow, List.map_map]
    rfl

theorem safe_iff {t : OtsTimestamp} : t.Safe ↔ ∀ e ∈ pathsAt t, e.2.attestation.Safe := by
  unfold OtsTimestamp.Safe
  rw [← map_snd_pathsAt, List.forall_mem_map]

theorem safe_mk {m : Bytes} {as : List OtsAttestation} {os : List (OtsOp × OtsTimestamp)} :
    (OtsTimestamp.mk m as os).Safe ↔ (∀ a ∈ as, a.Safe) ∧ ∀ o ∈ os, o.2.Safe :=
  forall_attestationsAt OtsAttestation.Safe

/-! ## What is written tells what it is -/

theorem opKey_injective {op op' : OtsOp} (hop : op.Small) (hop' : op'.Small)
    (h : opKey op = opKey op') : op = op' := by
  have hbytes := toHex_injective h
  rw [opBytes_eq, opBytes_eq, List.cons.injEq] at hbytes
  have hread := readOp_tail hop [] 0
  rw [hbytes.1, hbytes.2, readOp_tail hop' [] 0] at hread
  cases hread
  rfl

theorem varbytes_injective {as bs : Bytes} (ha : as.length ≤ maxSafe) (hb : bs.length ≤ maxSafe)
    (h : varbytes as = varbytes bs) : as = bs := by
  have hreada := (varbytes_exactly ha maxSafe [] 0).of_cond ha
  have hreadb := (varbytes_exactly hb maxSafe [] 0).of_cond hb
  rw [h, hreadb] at hreada
  cases hreada
  rfl

theorem varuintBytes_injective {a b : ℕ} (ha : a ≤ maxSafe) (hb : b ≤ maxSafe)
    (h : varuintBytes a = varuintBytes b) : a = b := by
  have hread := varuint_bytes ha [] 0
  rw [h, varuint_bytes hb [] 0] at hread
  cases hread
  rfl

/-- The tag of an attestation. -/
def OtsAttestation.tag : OtsAttestation → Bytes
  | .pending _ => tagPending
  | .bitcoin _ => tagBitcoin
  | .unknown tag _ => tag

/-- What stands behind the tag. -/
def OtsAttestation.payload : OtsAttestation → Bytes
  | .pending uri => varbytes (utf8 uri)
  | .bitcoin height => varuintBytes height
  | .unknown _ payload => payload

theorem code_eq (a : OtsAttestation) : a.code = a.tag ++ varbytes a.payload := by
  cases a with
  | pending uri => rfl
  | bitcoin height => rfl
  | unknown tag payload => rfl

theorem tag_length {a : OtsAttestation} (h : a.Read) : a.tag.length = 8 := by
  cases a with
  | pending uri => rfl
  | bitcoin height => rfl
  | unknown tag payload => exact h.1

theorem uri_length {uri : Text} (h : (OtsAttestation.pending uri).Read) :
    (utf8 uri).length ≤ maxPayload - 8 := by
  have hlen := h.2
  have hutf8 := utf8_length uri
  unfold maxUri at hlen
  unfold maxPayload
  omega

theorem payload_length {a : OtsAttestation} (h : a.Read) (hs : a.Safe) :
    a.payload.length ≤ maxPayload := by
  cases a with
  | pending uri =>
    have hlen := uri_length h
    have hvar := varbytes_length (hlen.trans ((Nat.sub_le _ _).trans maxPayload_safe))
    change (varbytes (utf8 uri)).length ≤ maxPayload
    unfold maxPayload at hlen ⊢
    omega
  | bitcoin height =>
    have hlen := varuintBytes_length hs
    change (varuintBytes height).length ≤ maxPayload
    unfold maxPayload
    omega
  | unknown tag payload => exact h.2.2.2

/-- **Attestations that are written alike are one.** -/
theorem code_injective {a b : OtsAttestation} (ha : a.Read) (hb : b.Read) (hsa : a.Safe)
    (hsb : b.Safe) (h : a.code = b.code) : a = b := by
  rw [code_eq, code_eq] at h
  obtain ⟨htag, hvar⟩ := List.append_inj h ((tag_length ha).trans (tag_length hb).symm)
  have hpayload := varbytes_injective ((payload_length ha hsa).trans maxPayload_safe)
    ((payload_length hb hsb).trans maxPayload_safe) hvar
  cases a with
  | pending uri =>
    cases b with
    | pending uri' =>
      have hbound : ∀ {u : Text}, (OtsAttestation.pending u).Read → (utf8 u).length ≤ maxSafe :=
        fun hu => (uri_length hu).trans ((Nat.sub_le _ _).trans maxPayload_safe)
      have hutf8 := varbytes_injective (hbound ha) (hbound hb) hpayload
      rw [← utf8Decode_utf8 ha.1, hutf8, utf8Decode_utf8 hb.1]
    | bitcoin height => exact absurd htag (show tagPending ≠ tagBitcoin by decide)
    | unknown tag payload => exact absurd htag.symm hb.2.1
  | bitcoin height =>
    cases b with
    | pending uri => exact absurd htag (show tagBitcoin ≠ tagPending by decide)
    | bitcoin height' => rw [varuintBytes_injective hsa hsb hpayload]
    | unknown tag payload => exact absurd htag.symm hb.2.2.1
  | unknown tag payload =>
    cases b with
    | pending uri => exact absurd htag ha.2.1
    | bitcoin height => exact absurd htag ha.2.2.1
    | unknown tag' payload' =>
      change tag = tag' at htag
      change payload = payload' at hpayload
      rw [htag, hpayload]

/-! ## The union -/

/-- A timestamp that was obtained and whose heights can all be written. -/
structure Writable (D : Digests) (t : OtsTimestamp) : Prop where
  sound : t.Sound D
  safe : t.Safe

theorem Writable.branch {m : Bytes} {as : List OtsAttestation} {os : List (OtsOp × OtsTimestamp)}
    (h : Writable D (.mk m as os)) {o : OtsOp × OtsTimestamp} (ho : o ∈ os) :
    Writable D o.2 ∧ Follows D m o :=
  ⟨⟨((sound_mk.mp h.sound).2 o ho).sound, (safe_mk.mp h.safe).2 o ho⟩, (sound_mk.mp h.sound).2 o ho⟩

/-- The merge of two timestamps does not throw and has the attestations of both. -/
def Unites (t other : OtsTimestamp) : Prop :=
  ∃ m, mergeTimestamp t other = (m, none) ∧ ∀ e, e ∈ pathsAt m ↔ e ∈ pathsAt t ∨ e ∈ pathsAt other

theorem Unites.writable {t other m : OtsTimestamp} (h : Unites t other) (ht : Writable D t)
    (hother : Writable D other) (hm : mergeTimestamp t other = (m, none)) : Writable D m := by
  obtain ⟨m', hm', hunion⟩ := h
  rw [hm] at hm'
  cases hm'
  have hsound := sound_mergeTimestamp other hother.sound t ht.sound
  rw [hm] at hsound
  refine ⟨hsound, safe_iff.mpr fun e he => ?_⟩
  rcases (hunion e).mp he with he | he
  · exact safe_iff.mp ht.safe e he
  · exact safe_iff.mp hother.safe e he

/-- Attestations that can be written are added when none that is written alike is there. -/
theorem addAttestations_safe {present : List Bytes} {as : List OtsAttestation}
    (h : ∀ a ∈ as, a.Safe) :
    addAttestations present as = (as.filter fun a => a.code ∉ present, none) := by
  induction as with
  | nil => rfl
  | cons a as ih =>
    rw [List.forall_mem_cons] at h
    rw [addAttestations, (attestationBytes_exactly a).of_cond h.1, ih h.2]
    by_cases ha : a.code ∈ present
    · simp [ha]
    · simp [ha]

/-- The branches are united, operation by operation. -/
theorem mergeOps_unites {m : Bytes} {into ops : List (OtsOp × OtsTimestamp)}
    (ih : ∀ o ∈ ops, ∀ t, Writable D t → t.msg = o.2.msg → Unites t o.2)
    (hinto : ∀ o ∈ into, Writable D o.2 ∧ Follows D m o)
    (hops : ∀ o ∈ ops, Writable D o.2 ∧ Follows D m o) :
    ∃ out, mergeOps into ops = (out, none) ∧
      ∀ e, e ∈ pathsOf out ↔ e ∈ pathsOf into ∨ e ∈ pathsOf ops := by
  induction ops generalizing into with
  | nil =>
    rw [mergeOps]
    exact ⟨into, rfl, by simp [pathsOf]⟩
  | cons o ops ihOps =>
    obtain ⟨op, next⟩ := o
    rw [List.forall_mem_cons] at ih hops
    rw [mergeOps]
    cases hlast : lastBranch (opKey op) into with
    | none =>
      have hgrown : ∀ o ∈ into ++ [(op, next)], Writable D o.2 ∧ Follows D m o := by
        intro o ho
        rcases List.mem_append.mp ho with ho | ho
        · exact hinto o ho
        · rw [List.mem_singleton.mp ho]
          exact hops.1
      obtain ⟨out, hout, hunion⟩ := ihOps ih.2 hgrown hops.2
      refine ⟨out, hout, fun e => ?_⟩
      rw [hunion, pathsOf_append, pathsOf, pathsOf, pathsOf, List.append_nil, List.mem_append,
        List.mem_append, or_assoc]
    | some r =>
      obtain ⟨before, hit, after⟩ := r
      obtain ⟨hsplit, hkey, -⟩ := lastBranch_spec hlast
      have hhit := hinto hit (by simp [hsplit])
      -- the branches have one operation, so they have one message
      have hop : hit.1 = op := opKey_injective hhit.2.small hops.1.2.small hkey
      have hmsg : hit.2.msg = next.msg := by
        have happlied := hhit.2.applied
        rw [hop, hops.1.2.applied] at happlied
        exact (Except.ok.inj happlied).symm
      have hunites := ih.1 hit.2 hhit.1 hmsg
      obtain ⟨merged, hmerged, hboth⟩ := hunites
      have hwritable := Unites.writable ⟨merged, hmerged, hboth⟩ hhit.1 hops.1.1 hmerged
      have hmergedMsg : merged.msg = hit.2.msg := by
        have h := msg_mergeTimestamp hit.2 next
        rw [hmerged] at h
        exact h
      have hplaced : ∀ o ∈ before ++ (hit.1, merged) :: after, Writable D o.2 ∧ Follows D m o := by
        intro o ho
        rw [List.mem_append, List.mem_cons] at ho
        rcases ho with ho | rfl | ho
        · exact hinto o (by simp [hsplit, ho])
        · refine ⟨hwritable, hhit.2.small, ?_, hwritable.sound⟩
          rw [hmergedMsg]
          exact hhit.2.applied
        · exact hinto o (by simp [hsplit, ho])
      obtain ⟨out, hout, hunion⟩ := ihOps ih.2 hplaced hops.2
      dsimp only
      rw [hmerged]
      refine ⟨out, hout, fun e => ?_⟩
      have hbelow : e ∈ (pathsAt merged).map (fun e => (hit.1 :: e.1, e.2)) ↔
          e ∈ (pathsAt hit.2).map (fun e => (hit.1 :: e.1, e.2)) ∨
            e ∈ (pathsAt next).map (fun e => (op :: e.1, e.2)) := by
        rw [hop]
        simp only [List.mem_map, hboth, or_and_right, exists_or]
      rw [hunion, hsplit, pathsOf_append, pathsOf_append, pathsOf, pathsOf, pathsOf]
      simp only [List.mem_append, hbelow]
      tauto

/-- **Timestamps of one message whose heights can be written are united.** -/
theorem unites (other : OtsTimestamp) (hother : Writable D other) (t : OtsTimestamp)
    (ht : Writable D t) (hmsg : t.msg = other.msg) : Unites t other := by
  induction other using OtsTimestamp.byOps generalizing t with
  | h m as os ih =>
    obtain ⟨tm, tas, tos⟩ := t
    change tm = m at hmsg
    subst hmsg
    obtain ⟨htsafe, -⟩ := safe_mk.mp ht.safe
    obtain ⟨hsafe, -⟩ := safe_mk.mp hother.safe
    have hpresent : tas.mapM attestationBytes = .ok (tas.map OtsAttestation.code) :=
      (Exactly.mapM fun a (_ : a ∈ tas) => attestationBytes_exactly a).of_cond htsafe
    obtain ⟨out, hout, hunion⟩ := mergeOps_unites
      (fun o ho t' ht' hmsg' => ih o ho (hother.branch ho).1 t' ht' hmsg')
      (fun o ho => ht.branch ho) (fun o ho => hother.branch ho)
    have hsame : ¬ (OtsTimestamp.mk tm tas tos).msg ≠ tm := not_not_intro rfl
    have hatts : (OtsTimestamp.mk tm tas tos).attestations = tas := rfl
    have hops : (OtsTimestamp.mk tm tas tos).ops = tos := rfl
    refine ⟨.mk tm (tas ++ as.filter fun a => a.code ∉ tas.map OtsAttestation.code) out, ?_, ?_⟩
    · rw [mergeTimestamp, if_neg hsame, hatts, hpresent]
      simp only [addAttestations_safe hsafe, hops, hout]
      rfl
    · intro e
      -- what is left out is there already
      have hhere : ∀ a, a ∈ tas ++ as.filter (fun a => a.code ∉ tas.map OtsAttestation.code) ↔
          a ∈ tas ∨ a ∈ as := by
        intro a
        rw [List.mem_append, List.mem_filter, decide_eq_true_eq]
        constructor
        · exact Or.imp_right And.left
        · rintro (ha | ha)
          · exact .inl ha
          · by_cases hcode : a.code ∈ tas.map OtsAttestation.code
            · obtain ⟨b, hb, heq⟩ := List.mem_map.mp hcode
              have hba := code_injective ((sound_mk.mp ht.sound).1 b hb)
                ((sound_mk.mp hother.sound).1 a ha) (htsafe b hb) (hsafe a ha) heq
              exact .inl (hba ▸ hb)
            · exact .inr ⟨ha, hcode⟩
      rw [mem_pathsAt, mem_pathsAt, mem_pathsAt, hunion]
      simp only [hhere, or_and_right, exists_or]
      exact or_or_or_comm

/-! ## Nothing twice -/

/-- No node has an attestation twice, or two branches of one operation. -/
inductive OtsTimestamp.Tidy : OtsTimestamp → Prop
  | mk {m : Bytes} {as : List OtsAttestation} {os : List (OtsOp × OtsTimestamp)} (hatts : as.Nodup)
      (hkeys : (os.map fun o => opKey o.1).Nodup) (hops : ∀ o ∈ os, o.2.Tidy) : Tidy (.mk m as os)

theorem tidy_mk {m : Bytes} {as : List OtsAttestation} {os : List (OtsOp × OtsTimestamp)} :
    (OtsTimestamp.mk m as os).Tidy ↔
      as.Nodup ∧ (os.map fun o => opKey o.1).Nodup ∧ ∀ o ∈ os, o.2.Tidy := by
  constructor
  · rintro ⟨hatts, hkeys, hops⟩
    exact ⟨hatts, hkeys, hops⟩
  · rintro ⟨hatts, hkeys, hops⟩
    exact .mk hatts hkeys hops

theorem keys_of_branches {key : Text} {os : List (OtsOp × OtsTimestamp)} (h : branches key os = []) :
    key ∉ os.map fun o => opKey o.1 := by
  intro hmem
  obtain ⟨o, ho, hkey⟩ := List.mem_map.mp hmem
  have hin : o ∈ branches key os := List.mem_filter.mpr ⟨ho, by simpa using hkey⟩
  rw [h] at hin
  cases hin

/-- A merge adds no second branch of an operation. -/
theorem keys_mergeOps {into ops : List (OtsOp × OtsTimestamp)}
    (h : (into.map fun o => opKey o.1).Nodup) :
    ((mergeOps into ops).1.map fun o => opKey o.1).Nodup := by
  induction ops generalizing into with
  | nil =>
    rw [mergeOps]
    exact h
  | cons o ops ih =>
    obtain ⟨op, next⟩ := o
    rw [mergeOps]
    cases hlast : lastBranch (opKey op) into with
    | none =>
      apply ih
      rw [List.map_append, List.map_singleton]
      exact h.append (List.nodup_singleton _)
        (List.disjoint_singleton.mpr (keys_of_branches (lastBranch_eq_none.mp hlast)))
    | some r =>
      obtain ⟨before, hit, after⟩ := r
      rw [lastBranch_eq_some hlast] at h
      have hplaced : ((before ++ (hit.1, (mergeTimestamp hit.2 next).1) :: after).map
          fun o => opKey o.1).Nodup := by
        rw [List.map_append, List.map_cons] at h ⊢
        exact h
      dsimp only
      cases hm : mergeTimestamp hit.2 next with
      | mk merged e =>
        rw [hm] at hplaced
        cases e with
        | some e => exact hplaced
        | none => exact ih hplaced

/-- **A merge of tidy timestamps is tidy.** -/
theorem tidy_mergeTimestamp (other : OtsTimestamp) (hother : other.Tidy) (t : OtsTimestamp)
    (ht : t.Tidy) : (mergeTimestamp t other).1.Tidy := by
  induction other using OtsTimestamp.byOps generalizing t with
  | h m as os ih =>
    obtain ⟨added, ops, heq, hsub, hnew, hops⟩ := mergeTimestamp_fst t m as os
    obtain ⟨tm, tas, tos⟩ := t
    obtain ⟨hatts, -, hbelow⟩ := tidy_mk.mp hother
    obtain ⟨htatts, htkeys, htbelow⟩ := tidy_mk.mp ht
    rw [heq, tidy_mk]
    refine ⟨htatts.append (hsub.nodup hatts) fun a ha hadded => hnew a hadded ha, ?_⟩
    rcases hops with rfl | rfl
    · exact ⟨htkeys, htbelow⟩
    · refine ⟨keys_mergeOps htkeys, mergeOps_all htbelow hbelow ?_⟩
      intro o ho x hx _
      exact ih o ho (hbelow o ho) x.2 hx

/-- A tidy timestamp lists no attestation twice with one path. -/
theorem nodup_pathsAt {t : OtsTimestamp} (h : t.Tidy) : (pathsAt t).Nodup := by
  induction h with
  | @mk m as os hatts hkeys _ ih =>
    have hops : (os.map Prod.fst).Nodup := by
      apply List.Nodup.of_map opKey
      rw [List.map_map]
      exact hkeys
    rw [pathsAt, List.nodup_append]
    refine ⟨?_, ?_, ?_⟩
    · apply List.Nodup.map _ hatts
      intro a b hab
      simpa using hab
    · rw [pathsOf_eq, List.nodup_flatMap]
      constructor
      · intro o ho
        apply List.Nodup.map _ (ih o ho)
        intro e e' he
        rw [Prod.mk.injEq, List.cons.injEq] at he
        exact Prod.ext he.1.2 he.2
      · rw [List.Nodup, List.pairwise_map] at hops
        refine hops.imp fun {o o'} hne => ?_
        intro e he he'
        obtain ⟨d, -, rfl⟩ := List.mem_map.mp he
        obtain ⟨d', -, heq⟩ := List.mem_map.mp he'
        rw [Prod.mk.injEq, List.cons.injEq] at heq
        exact hne heq.1.1.symm
    · intro e he e' he' heq
      subst heq
      obtain ⟨a, -, rfl⟩ := List.mem_map.mp he
      rw [pathsOf_eq] at he'
      obtain ⟨o, -, hbelow⟩ := List.mem_flatMap.mp he'
      obtain ⟨d, -, heq⟩ := List.mem_map.mp hbelow
      cases heq

/-! ## A height that cannot be written -/

/-- Along the last branches of the operations of a path there is a node. -/
inductive Reaches : OtsTimestamp → List OtsOp → Prop
  | nil (t : OtsTimestamp) : Reaches t []
  | cons {t next : OtsTimestamp} {op : OtsOp} {p : List OtsOp} :
      lastOf (opKey op) t.ops = some next → Reaches next p → Reaches t (op :: p)

/-- A merge keeps the nodes of a timestamp. -/
theorem reaches_mergeTimestamp (other : OtsTimestamp) (t : OtsTimestamp) {p : List OtsOp}
    (h : Reaches t p) : Reaches (mergeTimestamp t other).1 p := by
  induction other using OtsTimestamp.byOps generalizing t p with
  | h m as os ih =>
    cases h with
    | nil => exact .nil _
    | @cons _ next op p hlast hnext =>
      obtain ⟨added, ops, heq, -, -, hops⟩ := mergeTimestamp_fst t m as os
      rw [heq]
      have hkept : ∃ x, lastOf (opKey op) ops = some x ∧ Reaches x p := by
        rcases hops with rfl | rfl
        · exact ⟨next, hlast, hnext⟩
        · exact mergeOps_last ⟨next, hlast, hnext⟩ fun o ho _ x hx => ih o ho x hx
      obtain ⟨x, hx, hreach⟩ := hkept
      exact .cons hx hreach

/-- The merge throws at the branch of an operation, whatever was merged before. -/
theorem mergeOps_throws {Q : OtsTimestamp → Prop} {into ops : List (OtsOp × OtsTimestamp)}
    {o : OtsOp × OtsTimestamp} (ho : o ∈ ops) (hinto : ∃ t, lastOf (opKey o.1) into = some t ∧ Q t)
    (hkeep : ∀ o' ∈ ops, opKey o'.1 = opKey o.1 → ∀ t, Q t → Q (mergeTimestamp t o'.2).1)
    (hthrow : ∀ t, Q t → (mergeTimestamp t o.2).2 ≠ none) : (mergeOps into ops).2 ≠ none := by
  induction ops generalizing into with
  | nil => cases ho
  | cons o' ops ih =>
    obtain ⟨op, next⟩ := o'
    obtain ⟨t, ht, hq⟩ := hinto
    rw [List.forall_mem_cons] at hkeep
    rw [mergeOps]
    cases hlast : lastBranch (opKey op) into with
    | none =>
      have hne : opKey op ≠ opKey o.1 := by
        intro heq
        rw [heq] at hlast
        rw [lastOf_eq_none.mpr (lastBranch_eq_none.mp hlast)] at ht
        cases ht
      have ho : o ∈ ops := by
        rcases List.mem_cons.mp ho with rfl | ho
        · exact absurd rfl hne
        · exact ho
      refine ih ho ⟨t, ?_, hq⟩ hkeep.2
      rw [lastOf_concat_of_ne (o := (op, next)) hne]
      exact ht
    | some r =>
      obtain ⟨before, hit, after⟩ := r
      dsimp only
      cases hm : mergeTimestamp hit.2 next with
      | mk merged e =>
        cases e with
        | some e => exact Option.some_ne_none e
        | none =>
          by_cases hkey : opKey op = opKey o.1
          · rw [hkey] at hlast
            rw [lastOf_eq hlast] at ht
            cases ht
            have ho : o ∈ ops := by
              rcases List.mem_cons.mp ho with rfl | ho
              · have hthrown := hthrow hit.2 hq
                rw [hm] at hthrown
                exact absurd rfl hthrown
              · exact ho
            have hmerged := hkeep.1 hkey hit.2 hq
            rw [hm] at hmerged
            exact ih ho ⟨merged, lastOf_placed hlast merged, hmerged⟩ hkeep.2
          · have ho : o ∈ ops := by
              rcases List.mem_cons.mp ho with rfl | ho
              · exact absurd rfl hkey
              · exact ho
            exact ih ho ⟨t, (lastOf_placed_of_ne hlast hkey merged).trans ht, hq⟩ hkeep.2

theorem safe_of_addAttestations {present : List Bytes} {as added : List OtsAttestation}
    (h : addAttestations present as = (added, none)) : ∀ a ∈ as, a.Safe := by
  induction as generalizing added with
  | nil => simp
  | cons a as ih =>
    rw [addAttestations] at h
    cases ha : attestationBytes a with
    | error e =>
      rw [ha] at h
      cases h
    | ok b =>
      rw [ha] at h
      have hnone : (addAttestations present as).2 = none := congrArg Prod.snd h
      have hrest : addAttestations present as = ((addAttestations present as).1, none) :=
        Prod.ext rfl hnone
      rw [List.forall_mem_cons]
      exact ⟨((attestationBytes_exactly a).of_ok b ha).1, ih hrest⟩

/-- **A merge throws where both timestamps have a node and a height cannot be written.** -/
theorem merge_throws (other : OtsTimestamp) (t : OtsTimestamp) {p : List OtsOp} {x : AttestationAt}
    (hreach : Reaches t p) (hx : (p, x) ∈ pathsAt other) (hhigh : ¬ x.attestation.Safe) :
    (mergeTimestamp t other).2 ≠ none := by
  induction other using OtsTimestamp.byOps generalizing t p with
  | h m as os ih =>
    rw [mergeTimestamp]
    split_ifs with hmsg
    · exact Option.some_ne_none _
    cases hpresent : t.attestations.mapM attestationBytes with
    | error e => exact Option.some_ne_none e
    | ok present =>
      dsimp only
      cases hadd : addAttestations present as with
      | mk added e =>
        cases e with
        | some e => exact Option.some_ne_none e
        | none =>
          have hsafe := safe_of_addAttestations hadd
          rcases mem_pathsAt.mp hx with ⟨a, ha, heq⟩ | hbelow
          · cases heq
            exact absurd (hsafe a ha) hhigh
          · rw [pathsOf_eq] at hbelow
            obtain ⟨o, ho, hpath⟩ := List.mem_flatMap.mp hbelow
            obtain ⟨e, he, heq⟩ := List.mem_map.mp hpath
            cases heq
            cases hreach with
            | cons hlast hnext =>
              exact mergeOps_throws ho ⟨_, hlast, hnext⟩
                (fun o' _ _ t' ht' => reaches_mergeTimestamp o'.2 t' ht')
                fun t' ht' => ih o ho t' ht' he

/-- A timestamp that is built along a path, wherever it stands. -/
theorem exists_reaches (place : OtsTimestamp → OtsTimestamp)
    (hplace : ∀ change n n', At change n n' → At change (place n) (place n')) {o : OtsTimestamp}
    (ho : o.Sound D) {p : List OtsOp} {x : AttestationAt} (hx : (p, x) ∈ pathsAt o)
    (hstart : Obtained D (place (newTimestamp o.msg))) :
    ∃ t, Obtained D (place t) ∧ pathsAt t = [] ∧ t.msg = o.msg ∧ Reaches t p := by
  induction p generalizing o place with
  | nil => exact ⟨newTimestamp o.msg, hstart, rfl, rfl, .nil _⟩
  | cons op p ih =>
    obtain ⟨m, as, os⟩ := o
    rcases mem_pathsAt.mp hx with ⟨a, -, heq⟩ | hbelow
    · cases heq
    rw [pathsOf_eq] at hbelow
    obtain ⟨⟨op', next⟩, hmem, hpath⟩ := List.mem_flatMap.mp hbelow
    obtain ⟨e, he, heq⟩ := List.mem_map.mp hpath
    cases heq
    have hnext := (sound_mk.mp ho).2 _ hmem
    -- the branch that leads on, with a new node below it
    let below := fun n => place (.mk m [] [(op', n)])
    have hbelow : ∀ change n n', At change n n' → At change (below n) (below n') := by
      intro change n n' hat
      exact hplace change _ _ (@At.branch change m [] [] [] op' n n' hat)
    have hadd : addOp D (newTimestamp m) op' =
        .ok (.mk m [] [(op', newTimestamp next.msg)], newTimestamp next.msg) := by
      have happlied : applyOp D op' m = .ok next.msg := hnext.applied
      unfold addOp newTimestamp
      simp only [OtsTimestamp.ops, OtsTimestamp.msg, OtsTimestamp.attestations, List.find?_nil,
        List.nil_append]
      rw [happlied]
      rfl
    have hgrown : Obtained D (below (newTimestamp next.msg)) :=
      .added op' hstart (hplace _ _ _ (.here ⟨_, hadd⟩))
    obtain ⟨t, ht, hempty, hmsg, hreach⟩ := ih below hbelow hnext.sound he hgrown
    refine ⟨.mk m [] [(op', t)], ht, ?_, rfl, ?_⟩
    · rw [pathsAt, pathsOf, pathsOf, hempty]
      rfl
    · refine .cons ?_ hreach
      simp [lastOf, branches, OtsTimestamp.ops]

/-! ## Merging well -/

/-- Two timestamps merge well: in both orders nothing is thrown and the attestations of both are
there, each with its own path; to merge again changes nothing; and of tidy timestamps the
attestations are listed in another order and none of them twice. -/
structure MergeWell (t o : OtsTimestamp) : Prop where
  there : Unites t o
  back : Unites o t
  again : ∀ m, mergeTimestamp t o = (m, none) →
    ∃ m', mergeTimestamp m o = (m', none) ∧ ∀ e, e ∈ pathsAt m' ↔ e ∈ pathsAt m
  listed : t.Tidy → o.Tidy → ∀ m m' m'', mergeTimestamp t o = (m, none) →
    mergeTimestamp o t = (m', none) → mergeTimestamp m o = (m'', none) →
      (pathsAt m).Nodup ∧ (pathsAt m).Perm (pathsAt m') ∧ (pathsAt m'').Perm (pathsAt m)

theorem mergeWell {t o : OtsTimestamp} (ht : Writable D t) (ho : Writable D o) (hmsg : t.msg = o.msg) :
    MergeWell t o := by
  have hthere := unites o ho t ht hmsg
  have hback := unites t ht o ho hmsg.symm
  have hagain : ∀ m, mergeTimestamp t o = (m, none) →
      ∃ m', mergeTimestamp m o = (m', none) ∧ ∀ e, e ∈ pathsAt m' ↔ e ∈ pathsAt m := by
    intro m hm
    have hmsgs := msg_mergeTimestamp t o
    rw [hm] at hmsgs
    obtain ⟨m', hm', hunion⟩ := unites o ho m (hthere.writable ht ho hm) (hmsgs.trans hmsg)
    obtain ⟨n, hn, hboth⟩ := hthere
    rw [hm] at hn
    cases hn
    refine ⟨m', hm', fun e => ?_⟩
    rw [hunion, or_iff_left_iff_imp, hboth]
    exact .inr
  refine ⟨hthere, hback, hagain, ?_⟩
  intro httidy hotidy m m' m'' hm hm' hm''
  have hmtidy := tidy_mergeTimestamp o hotidy t httidy
  rw [hm] at hmtidy
  have hm'tidy := tidy_mergeTimestamp t httidy o hotidy
  rw [hm'] at hm'tidy
  have hm''tidy := tidy_mergeTimestamp o hotidy m hmtidy
  rw [hm''] at hm''tidy
  obtain ⟨n, hn, hboth⟩ := hthere
  rw [hm] at hn
  cases hn
  obtain ⟨n', hn', hboth'⟩ := hback
  rw [hm'] at hn'
  cases hn'
  obtain ⟨n'', hn'', hsame⟩ := hagain m hm
  rw [hm''] at hn''
  cases hn''
  refine ⟨nodup_pathsAt hmtidy, ?_, ?_⟩
  · rw [List.perm_ext_iff_of_nodup (nodup_pathsAt hmtidy) (nodup_pathsAt hm'tidy)]
    intro e
    rw [hboth, hboth', or_comm]
  · rw [List.perm_ext_iff_of_nodup (nodup_pathsAt hm''tidy) (nodup_pathsAt hmtidy)]
    exact hsame

variable (D) in
/-- A timestamp merges well with every one of its message whose heights can be written. -/
def MergesWell (o : OtsTimestamp) : Prop :=
  ∀ t, Obtained D t → t.Safe → t.msg = o.msg → MergeWell t o

/-- **Every message follows from the one above it, and a timestamp merges well if and only if its
heights can be written.** -/
theorem timestamps_stay_consistent (D : Digests) :
    (∀ t, Obtained D t → t.Sound D) ∧
      ∀ o, Obtained D o → (MergesWell D o ↔ ∀ x ∈ attestationsAt o, x.attestation.Safe) := by
  refine ⟨fun t ht => ht.sound, fun o ho => ⟨fun hwell => ?_, fun hsafe => ?_⟩⟩
  · by_contra hhigh
    have hbad : ¬ ∀ e ∈ pathsAt o, e.2.attestation.Safe := fun h => hhigh (safe_iff.mpr h)
    push Not at hbad
    obtain ⟨⟨p, x⟩, hx, hhigh⟩ := hbad
    -- a timestamp without attestations that has the node
    obtain ⟨t, ht, hempty, hmsg, hreach⟩ := exists_reaches id (fun _ _ _ hat => hat) ho.sound hx
      (.new o.msg)
    have htsafe : t.Safe := by
      rw [safe_iff, hempty]
      simp
    obtain ⟨m, hm, -⟩ := (hwell t ht htsafe hmsg).there
    apply merge_throws o t hreach hx hhigh
    rw [hm]
  · intro t ht htsafe hmsg
    exact mergeWell ⟨ht.sound, htsafe⟩ ⟨ho.sound, hsafe⟩ hmsg

/-- The height 2⁵³ as it is written, the first that cannot be written again. -/
def highHeight : Bytes := [0x80, 0x80, 0x80, 0x80, 0x80, 0x80, 0x80, 0x10]

/-- The attestation of a block of that height. -/
def highBlock : Bytes := 0x00 :: tagBitcoin ++ 8 :: highHeight

theorem varuintFrom_high (k shift : ℕ) {value : ℕ} (h : value ≤ 2 ^ 53) (bs : Bytes) (nodes : ℕ) :
    Reader.varuintFrom (k + 1) value shift ⟨0x80 :: bs, nodes⟩ =
      Reader.varuintFrom k value (shift * 128) ⟨bs, nodes⟩ := by
  have hsum : Reader.sum value 0 = value := sum_eq h
  change (if (0x80 : UInt8).toNat < 128 then
      Except.ok (Reader.sum value ((0x80 : UInt8).toNat % 128 * shift), (⟨bs, nodes⟩ : Reader))
    else Reader.varuintFrom k (Reader.sum value ((0x80 : UInt8).toNat % 128 * shift)) (shift * 128)
      ⟨bs, nodes⟩) = _
  have hbyte : (0x80 : UInt8).toNat = 128 := rfl
  simp [hbyte, hsum]

theorem varuint_highHeight : Reader.varuint ⟨highHeight, 0⟩ = .ok (2 ^ 53, ⟨[], 0⟩) := by
  have hzero : 0 ≤ 2 ^ 53 := Nat.zero_le _
  have hsum : Reader.sum 0 (2 ^ 53) = 2 ^ 53 := sum_eq le_rfl
  have hweight : 16 * (1 * 128 * 128 * 128 * 128 * 128 * 128 * 128) = 2 ^ 53 := by norm_num
  unfold Reader.varuint highHeight
  rw [varuintFrom_high _ _ hzero, varuintFrom_high _ _ hzero, varuintFrom_high _ _ hzero,
    varuintFrom_high _ _ hzero, varuintFrom_high _ _ hzero, varuintFrom_high _ _ hzero,
    varuintFrom_high _ _ hzero]
  change Except.ok (Reader.sum 0 (16 * (1 * 128 * 128 * 128 * 128 * 128 * 128 * 128)),
    (⟨[], 0⟩ : Reader)) = _
  rw [hweight, hsum]

theorem readAttestation_highBlock :
    readAttestation ⟨highBlock.tail, 1⟩ = .ok (.bitcoin (2 ^ 53), ⟨[], 1⟩) := by
  have hlen : Reader.varuint ⟨8 :: highHeight, 1⟩ = .ok (8, ⟨highHeight, 1⟩) :=
    varuint_bytes (n := 8) (by decide) highHeight 1
  have hwhole : wholePayload highHeight Reader.varuint = .ok (2 ^ 53) := by
    unfold wholePayload
    rw [varuint_highHeight]
    rfl
  refine bind_eq_ok.mpr ⟨(tagBitcoin, ⟨8 :: highHeight, 1⟩), rfl, ?_⟩
  refine bind_eq_ok.mpr ⟨(highHeight, ⟨[], 1⟩), bind_eq_ok.mpr ⟨_, hlen, rfl⟩, ?_⟩
  dsimp only
  rw [if_neg (by decide), if_pos rfl, hwhole]
  rfl

theorem parseTimestamp_highBlock (D : Digests) :
    parseTimestamp D highBlock [] = .ok (leaf [] (.bitcoin (2 ^ 53))) := by
  have hitem : readItem D 55 [] 0 0 ⟨highBlock.tail, 0⟩ =
      .ok (.attestation (.bitcoin (2 ^ 53)), ⟨[], 1⟩) := by
    refine bind_eq_ok.mpr ⟨⟨highBlock.tail, 1⟩, rfl, ?_⟩
    dsimp only
    rw [if_pos rfl]
    exact bind_eq_ok.mpr ⟨_, readAttestation_highBlock, rfl⟩
  have hitems : readItems D 56 0 (newTimestamp []) ⟨highBlock, 0⟩ =
      .ok (leaf [] (.bitcoin (2 ^ 53)), ⟨[], 1⟩) := by
    refine bind_eq_ok.mpr ⟨(0, ⟨highBlock.tail, 0⟩), rfl, ?_⟩
    dsimp only
    rw [if_neg (by decide)]
    exact bind_eq_ok.mpr ⟨_, hitem, rfl⟩
  refine bind_eq_ok.mpr ⟨(leaf [] (.bitcoin (2 ^ 53)), ⟨[], 1⟩), ?_, rfl⟩
  change (if maxDepth < 0 then .error "ots_depth" else readItems D 56 0 (newTimestamp []) ⟨highBlock, 0⟩) = _
  rw [if_neg (Nat.not_lt_zero _)]
  exact hitems

/-- A block that is read, and whose merge throws. -/
theorem high_block_is_not_merged : ∃ o, parseTimestamp zeroDigests highBlock [] = .ok o ∧
    mergeTimestamp (newTimestamp []) o = (newTimestamp [], some "ots_varuint") ∧
    ¬ MergesWell zeroDigests o := by
  have hthrow : mergeTimestamp (newTimestamp []) (leaf [] (.bitcoin (2 ^ 53))) =
      (newTimestamp [], some "ots_varuint") := rfl
  have hempty : (newTimestamp []).Safe := by
    intro a ha
    cases ha
  refine ⟨_, parseTimestamp_highBlock zeroDigests, hthrow, fun hwell => ?_⟩
  obtain ⟨m, hm, -⟩ := (hwell _ (.new []) hempty rfl).there
  rw [hthrow] at hm
  cases hm

end Klick.Ots
