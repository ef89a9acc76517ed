-- What the journal survives, and what its head proves: a file that is cut
-- anywhere reads as its complete lines, and without a collision of SHA-256
-- among what was hashed, one head has one history.
import Klick.Journal

open Js

namespace Klick

/-! ## Bytes cut off -/

theorem byte_toNat_ne {n : Nat} (h1 : n < 256) (h2 : n ≠ 10) : byte n ≠ 10 := by
  intro h
  have := congrArg UInt8.toNat h
  rw [byte_toNat h1] at this
  exact h2 this

/-- The bytes of a unit hold a newline only if the unit is one. -/
theorem newline_not_mem_utf8Unit {u : UInt16} (hu : u ≠ newline) : (10 : UInt8) ∉ utf8Unit u := by
  have hlt := u.toNat_lt
  have hne : u.toNat ≠ 10 := by
    intro h
    exact hu (UInt16.toNat_inj.mp h)
  intro hmem
  unfold utf8Unit at hmem
  split_ifs at hmem with h1 h2 h3
  · simp only [List.mem_singleton] at hmem
    exact byte_toNat_ne (by omega) hne hmem.symm
  · simp only [List.mem_cons, List.not_mem_nil, or_false] at hmem
    rcases hmem with h | h
    · exact byte_toNat_ne (by omega) (by omega) h.symm
    · exact byte_toNat_ne (by omega) (by omega) h.symm
  · simp at hmem
  · simp only [List.mem_cons, List.not_mem_nil, or_false] at hmem
    rcases hmem with h | h | h
    · exact byte_toNat_ne (by omega) (by omega) h.symm
    · exact byte_toNat_ne (by omega) (by omega) h.symm
    · exact byte_toNat_ne (by omega) (by omega) h.symm

theorem newline_not_mem_utf8Pair {u v : UInt16} (hu : isHighSurrogate u = true)
    (hv : isLowSurrogate v = true) : (10 : UInt8) ∉ utf8Pair u v := by
  simp only [isHighSurrogate, isLowSurrogate, Bool.and_eq_true, decide_eq_true_eq] at hu hv
  have hp : pairValue u v = 0x10000 + (u.toNat - 0xd800) * 1024 + (v.toNat - 0xdc00) := rfl
  intro hmem
  simp only [utf8Pair, List.mem_cons, List.not_mem_nil, or_false] at hmem
  rcases hmem with h | h | h | h
  · exact byte_toNat_ne (by omega) (by omega) h.symm
  · exact byte_toNat_ne (by omega) (by omega) h.symm
  · exact byte_toNat_ne (by omega) (by omega) h.symm
  · exact byte_toNat_ne (by omega) (by omega) h.symm

theorem newline_not_mem_utf8 {t : Text} (hp : Paired t) (h : newline ∉ t) :
    (10 : UInt8) ∉ utf8 t := by
  induction hp with
  | nil => simp [utf8]
  | unit hu _ ih =>
    simp only [List.mem_cons, not_or] at h
    rw [utf8_unit hu, List.mem_append, not_or]
    exact ⟨newline_not_mem_utf8Unit (Ne.symm h.1), ih h.2⟩
  | pair hu hv _ ih =>
    simp only [List.mem_cons, not_or] at h
    rw [utf8_pair hu hv, List.mem_append, not_or]
    exact ⟨newline_not_mem_utf8Pair hu hv, ih h.2.2⟩

/-- The bytes after the last newline. -/
def tornTail (bs : Bytes) : Bytes := (bs.splitOn 10).getLastD []

/-- The number of complete lines in the bytes. -/
def completeLines (bs : Bytes) : Nat := bs.count 10

theorem unlines_cons (l : Text) (ls : List Text) :
    unlines (l :: ls) = l ++ newline :: unlines ls := by
  simp [unlines]

theorem utf8_unlines_cons {l : Text} (hl : OneLine l) (ls : List Text) :
    utf8 (unlines (l :: ls)) = utf8 l ++ 10 :: utf8 (unlines ls) := by
  rw [unlines_cons, utf8_append hl.paired, utf8_unit (by decide)]
  rfl

/-- The units that are read for the part of a line. -/
def tornText (rest : Text) (torn : Bytes) : Text :=
  rest ++ if torn = [] then [] else [replacement]

/-- A file cut anywhere: some complete lines, and a part of the next line. -/
structure CutAt (ls : List Text) (bs : Bytes) (m : Nat) (rest : Text) (torn : Bytes) : Prop where
  bytes : bs = utf8 (unlines (ls.take m)) ++ (utf8 rest ++ torn)
  text : utf8Decode bs = unlines (ls.take m) ++ tornText rest torn
  count : m ≤ ls.length
  paired : Paired rest
  noNewline : newline ∉ rest
  tornPart : (10 : UInt8) ∉ torn

theorem take_utf8_not_mem {l : Text} (hl : OneLine l) (k : Nat) :
    (10 : UInt8) ∉ (utf8 l).take k := fun h =>
  newline_not_mem_utf8 hl.paired hl.noNewline (List.mem_of_mem_take h)

theorem cut_lines {ls : List Text} (h : ∀ l ∈ ls, OneLine l) (k : Nat) :
    ∃ m rest torn, CutAt ls ((utf8 (unlines ls)).take k) m rest torn := by
  induction ls generalizing k with
  | nil =>
    refine ⟨0, [], [], ?_, ?_, le_rfl, .nil, by simp, by simp⟩
    · simp [unlines, utf8]
    · simp [unlines, utf8, utf8Decode, decodeFrom, tornText]
  | cons l ls ih =>
    have hl := h l List.mem_cons_self
    rw [utf8_unlines_cons hl]
    by_cases hk : k ≤ (utf8 l).length
    · -- the cut is before the newline of this line
      obtain ⟨s, r, p, hsr, hs, hr, hbytes, htext⟩ := utf8Decode_take hl.paired k
      have hnot := take_utf8_not_mem hl k
      rw [List.take_append_of_le_length hk]
      refine ⟨0, s, p, ?_, ?_, Nat.zero_le _, hs, ?_, ?_⟩
      · simpa [unlines, utf8] using hbytes
      · simpa [unlines, tornText] using htext
      · intro hmem
        exact hl.noNewline (hsr ▸ List.mem_append_left r hmem)
      · intro hmem
        rw [hbytes] at hnot
        exact hnot (List.mem_append_right _ hmem)
    · obtain ⟨m, rest, torn, hcut⟩ := ih (fun l' hl' => h l' (List.mem_cons_of_mem _ hl'))
        (k - (utf8 l).length - 1)
      have htake : (utf8 l ++ 10 :: utf8 (unlines ls)).take k =
          utf8 l ++ 10 :: (utf8 (unlines ls)).take (k - (utf8 l).length - 1) := by
        obtain ⟨i, hi⟩ : ∃ i, k = (utf8 l).length + (i + 1) := ⟨k - (utf8 l).length - 1, by omega⟩
        rw [hi, List.take_length_add_append, List.take_succ_cons]
        congr 3
        omega
      have hline : utf8 (l ++ [newline]) = utf8 l ++ [10] := by
        rw [utf8_append hl.paired]
        rfl
      have hpaired : Paired (l ++ [newline]) := hl.paired.append (.unit (by decide) .nil)
      rw [htake]
      refine ⟨m + 1, rest, torn, ?_, ?_, ?_, hcut.paired, hcut.noNewline, hcut.tornPart⟩
      · rw [hcut.bytes, List.take_succ_cons, utf8_unlines_cons hl]
        simp
      · have hsplit : utf8 l ++ 10 :: (utf8 (unlines ls)).take (k - (utf8 l).length - 1) =
            utf8 (l ++ [newline]) ++ (utf8 (unlines ls)).take (k - (utf8 l).length - 1) := by
          rw [hline]
          simp
        rw [hsplit, utf8Decode_append hpaired, hcut.text, List.take_succ_cons, unlines_cons]
        simp
      · have := hcut.count
        simp only [List.length_cons]
        omega

/-! ## Where the cut falls -/

theorem splitOn_bytes {ls : List Text} (h : ∀ l ∈ ls, OneLine l) {bs : Bytes}
    (hbs : (10 : UInt8) ∉ bs) :
    (utf8 (unlines ls) ++ bs).splitOn 10 = ls.map utf8 ++ [bs] := by
  induction ls with
  | nil => exact List.splitOn_eq_singleton hbs
  | cons l ls ih =>
    have hl := h l List.mem_cons_self
    rw [utf8_unlines_cons hl, List.append_assoc, List.cons_append,
      List.splitOn_append_cons_self_of_not_mem (newline_not_mem_utf8 hl.paired hl.noNewline),
      ih fun m hm => h m (List.mem_cons_of_mem _ hm)]
    rfl

theorem count_bytes {ls : List Text} (h : ∀ l ∈ ls, OneLine l) {bs : Bytes}
    (hbs : (10 : UInt8) ∉ bs) : completeLines (utf8 (unlines ls) ++ bs) = ls.length := by
  unfold completeLines
  induction ls with
  | nil => exact List.count_eq_zero_of_not_mem hbs
  | cons l ls ih =>
    have hl := h l List.mem_cons_self
    have hnot := newline_not_mem_utf8 hl.paired hl.noNewline
    rw [utf8_unlines_cons hl, List.append_assoc, List.count_append, List.cons_append,
      List.count_eq_zero_of_not_mem hnot, List.count_cons_self,
      ih fun m hm => h m (List.mem_cons_of_mem _ hm), List.length_cons]
    omega

theorem CutAt.rest_not_mem {ls : List Text} {bs : Bytes} {m : Nat} {rest : Text} {torn : Bytes}
    (h : CutAt ls bs m rest torn) : (10 : UInt8) ∉ utf8 rest ++ torn := by
  rw [List.mem_append, not_or]
  exact ⟨newline_not_mem_utf8 h.paired h.noNewline, h.tornPart⟩

theorem CutAt.completeLines {ls : List Text} (hls : ∀ l ∈ ls, OneLine l) {bs : Bytes} {m : Nat}
    {rest : Text} {torn : Bytes} (h : CutAt ls bs m rest torn) : completeLines bs = m := by
  have hcount := h.count
  rw [h.bytes, count_bytes (fun l hl => hls l (List.mem_of_mem_take hl)) h.rest_not_mem,
    List.length_take]
  omega

theorem CutAt.tornTail {ls : List Text} (hls : ∀ l ∈ ls, OneLine l) {bs : Bytes} {m : Nat}
    {rest : Text} {torn : Bytes} (h : CutAt ls bs m rest torn) :
    tornTail bs = utf8 rest ++ torn := by
  unfold Klick.tornTail
  rw [h.bytes, splitOn_bytes (fun l hl => hls l (List.mem_of_mem_take hl)) h.rest_not_mem]
  simp

theorem CutAt.paired_tornText {ls : List Text} {bs : Bytes} {m : Nat} {rest : Text} {torn : Bytes}
    (h : CutAt ls bs m rest torn) : Paired (tornText rest torn) := by
  unfold tornText
  split
  · exact h.paired.append .nil
  · exact h.paired.append (.unit (by decide) .nil)

theorem CutAt.newline_not_mem {ls : List Text} {bs : Bytes} {m : Nat} {rest : Text}
    {torn : Bytes} (h : CutAt ls bs m rest torn) : newline ∉ tornText rest torn := by
  unfold tornText
  rw [List.mem_append, not_or]
  refine ⟨h.noNewline, ?_⟩
  split
  · simp
  · decide

theorem utf8_ne_nil {t : Text} (hp : Paired t) (h : t ≠ []) : utf8 t ≠ [] := by
  cases hp with
  | nil => exact absurd rfl h
  | unit hu _ =>
    rw [utf8_unit hu]
    intro h0
    have hunit := (List.append_eq_nil_iff.mp h0).1
    unfold utf8Unit at hunit
    split_ifs at hunit
  | pair hu hv _ =>
    rw [utf8_pair hu hv]
    intro h0
    have hpair := (List.append_eq_nil_iff.mp h0).1
    unfold utf8Pair at hpair
    cases hpair

/-! ## What a cut file reads as -/

/-- What the signer finds in the first bytes of a journal: the entries whose
lines are complete, and the rest cut off; it goes on from there. -/
structure Recovered (H : Sha256) (es : List JournalEntry) (bs : Bytes) : Prop where
  parsed : ∃ torn, parseJournal H (utf8Decode bs) =
      .ok ⟨(es.take (completeLines bs)).map JournalEntry.read,
        headAfter genesis (es.take (completeLines bs)), completeLines bs, torn⟩ ∧
    ((∃ t, Paired t ∧ utf8 t = bs) → torn = (tornTail bs).length)
  reopened : ∃ j, Journal.open H (some bs) =
      .ok (j, (es.take (completeLines bs)).map JournalEntry.read) ∧
    j.file = bs.take (bs.length - (tornTail bs).length) ∧
    ∀ ds j' es', j.appendAll H ds = .ok (j', es') → BodiesFit (completeLines bs + 1) ds →
      parseJournal H (utf8Decode j'.file) =
        .ok ⟨(es.take (completeLines bs) ++ es').map JournalEntry.read, j'.head, j'.seq, 0⟩

theorem parse_of_cutAt {H : Sha256} {es : List JournalEntry} {ls : List Text}
    (hc : Chain H genesis 1 es ls) (hfit : EntriesFit es) {bs : Bytes} {m : Nat} {rest : Text}
    {torn : Bytes} (h : CutAt ls bs m rest torn) : parseJournal H (utf8Decode bs) =
      .ok ⟨(es.take m).map JournalEntry.read, headAfter genesis (es.take m), m,
        (utf8 (tornText rest torn)).length⟩ := by
  have hone : ∀ l ∈ ls.take m, OneLine l := fun l hl => hc.oneLine l (List.mem_of_mem_take hl)
  have hlen : ∀ l ∈ ls.take m, l.length ≤ maxLine := fun l hl =>
    hc.fits_iff.mpr hfit l (List.mem_of_mem_take hl)
  have hm : (es.take m).length = m := by
    have := h.count
    rw [List.length_take, hc.length_eq]
    omega
  rw [h.text, parseJournal_unlines H hone h.newline_not_mem, (hc.take m).checkLines hlen]
  simp only [Except.map, headAfter_read, List.length_map, hm]

theorem EntriesFit.take {es : List JournalEntry} (h : EntriesFit es) (m : Nat) :
    EntriesFit (es.take m) := fun e he => h e (List.mem_of_mem_take he)

theorem EntriesFit.append {es fs : List JournalEntry} (h : EntriesFit es) (h' : EntriesFit fs) :
    EntriesFit (es ++ fs) := by
  intro e he
  rcases List.mem_append.mp he with he | he
  · exact h e he
  · exact h' e he

/-- Truncating takes the torn bytes off, however they were read. -/
theorem truncated_of_cutAt {ls : List Text} {bs : Bytes} {m : Nat} {rest : Text} {torn : Bytes}
    (hone : ∀ l ∈ ls, OneLine l) (h : CutAt ls bs m rest torn) :
    (if 0 < (utf8 (tornText rest torn)).length then
      truncate bs ((utf8 (utf8Decode bs)).length - (utf8 (tornText rest torn)).length) else bs) =
      utf8 (unlines (ls.take m)) := by
  have hpaired : Paired (unlines (ls.take m)) :=
    paired_unlines fun l hl => hone l (List.mem_of_mem_take hl)
  have htext : (utf8 (utf8Decode bs)).length - (utf8 (tornText rest torn)).length =
      (utf8 (unlines (ls.take m))).length := by
    rw [h.text, utf8_append hpaired, List.length_append]
    omega
  split
  · rw [htext, truncate, h.bytes, List.take_left, List.length_append,
      Nat.sub_eq_zero_of_le (Nat.le_add_right _ _)]
    simp
  · rename_i hz
    have hnil : tornText rest torn = [] := by
      by_contra hne
      exact hz (List.length_pos_iff.mpr (utf8_ne_nil h.paired_tornText hne))
    obtain ⟨hrest, htorn⟩ := List.append_eq_nil_iff.mp hnil
    have htorn' : torn = [] := by
      by_contra hne
      rw [if_neg hne] at htorn
      cases htorn
    rw [h.bytes, hrest, htorn']
    simp [utf8]

theorem recovered_of_cut {H : Sha256} {j : Journal} {es : List JournalEntry} {ls : List Text}
    (hj : j.Holds H es ls) (hfit : EntriesFit es) (k : Nat) :
    Recovered H es (j.file.take k) := by
  obtain ⟨m, rest, torn, hcut⟩ := cut_lines hj.chain.oneLine k
  rw [← hj.file] at hcut
  have hparse := parse_of_cutAt hj.chain hfit hcut
  have hm := hcut.completeLines hj.chain.oneLine
  have htail := hcut.tornTail hj.chain.oneLine
  have hlen : (es.take m).length = m := by
    have := hcut.count
    rw [List.length_take, hj.chain.length_eq]
    omega
  refine ⟨⟨(utf8 (tornText rest torn)).length, by rw [hm]; exact hparse, ?_⟩, ?_⟩
  · rintro ⟨t, ht, htb⟩
    have hdecode : utf8 (utf8Decode (j.file.take k)) = j.file.take k := by
      rw [← htb, utf8Decode_utf8 ht]
    have hpaired : Paired (unlines (ls.take m)) :=
      paired_unlines fun l hl => hj.chain.oneLine l (List.mem_of_mem_take hl)
    rw [hcut.text, utf8_append hpaired] at hdecode
    have hlens := congrArg List.length hdecode
    have hbytes := congrArg List.length hcut.bytes
    rw [List.length_append] at hlens hbytes
    rw [htail]
    omega
  · have hopen : Journal.open H (some (j.file.take k)) =
        .ok (⟨utf8 (unlines (ls.take m)), headAfter genesis (es.take m), m⟩,
          (es.take m).map JournalEntry.read) := by
      unfold Journal.open
      simp only [Option.getD_some]
      rw [hparse, ← truncated_of_cutAt hj.chain.oneLine hcut]
      rfl
    refine ⟨_, by rw [hm]; exact hopen, ?_, ?_⟩
    · rw [htail]
      have hbytes := hcut.bytes
      generalize j.file.take k = bs at hbytes
      rw [hbytes, List.length_append, Nat.add_sub_cancel, List.take_left]
    · intro ds j' es' hall hds
      have hholds : Journal.Holds H ⟨utf8 (unlines (ls.take m)), headAfter genesis (es.take m), m⟩
          (es.take m) (ls.take m) := ⟨hj.chain.take m, rfl, rfl, hlen.symm⟩
      obtain ⟨ls', hj', hevents⟩ := hholds.appendAll hall
      rw [hlen, ← hm] at hevents
      have hfit' := (bodiesFit_iff hevents).mp hds
      rw [hm]
      exact hj'.parse ((hfit.take m).append hfit')

/-! ## What an accepted line is -/

theorem decimal_ne_seq (i : Nat) : decimal i ≠ js "seq" := by
  intro h
  have hs := decimal_digits i (ch 's') (by rw [h]; exact List.mem_cons_self)
  exact absurd hs (by decide)

/-- Only an object has a number under `seq`. -/
theorem obj_of_get_seq {v : Value} {q : Number} (h : v.get (js "seq") = .num q) :
    ∃ fs, v = .obj fs := by
  have indexed : ∀ {α : Type} (g : Nat → α → Text × Value) (xs : List α),
      (∀ i x, (g i x).1 = decimal i) → lookup (js "seq") (xs.mapIdx g) = none := by
    intro α g xs hg
    apply lookup_eq_none_of_not_mem
    intro hmem
    obtain ⟨f, hf, hk⟩ := List.mem_map.mp hmem
    obtain ⟨i, hi, rfl⟩ := List.mem_mapIdx.mp hf
    rw [hg] at hk
    exact decimal_ne_seq i hk
  cases v with
  | obj fs => exact ⟨fs, rfl⟩
  | arr vs =>
    rw [Value.get, if_neg (by decide), Value.entries, indexed _ _ fun _ _ => rfl] at h
    cases h
  | str t =>
    rw [Value.get, if_neg (by decide), Value.entries, indexed _ _ fun _ _ => rfl] at h
    cases h
  | _ => cases h

theorem seqDiffers_false {v : Value} {n : Nat} (h : seqDiffers v n = .ok false) :
    v.get (js "seq") = .num (.fin n) := by
  unfold seqDiffers at h
  split at h
  · cases h
  · split at h
    · rename_i q hq
      simp only [Except.ok.injEq, decide_eq_false_iff_not, ne_eq, not_not] at h
      rw [hq, h]
    · cases h

theorem lineText_of_idxOf? {line : Text} (h : line.idxOf? tab = some 64) :
    line = lineText (line.take 64) (line.drop 65) := by
  obtain ⟨hlt, hget, -⟩ := List.idxOf?_eq_some_iff.mp h
  unfold lineText
  conv_lhs => rw [← List.take_append_drop 64 line]
  rw [List.drop_eq_getElem_cons hlt, hget]

/-- What the reader has seen of a line that it accepts. -/
theorem checkLine_cases {H : Sha256} {head : Text} {n : Nat} {line : Text} {e : JournalEntry}
    (h : checkLine H head n line = .ok e) :
    ∃ body fields, line = lineText (chainHash H head body) body ∧
      e = ⟨n, chainHash H head body, .obj fields⟩ ∧ parseJson body = .ok (.obj fields) ∧
      canonicalJson (.obj fields) = .ok body ∧
      (Value.obj fields).get (js "seq") = .num (.fin n) := by
  unfold checkLine at h
  split_ifs at h with h1 h2 h3
  cases hp : parseJson (line.drop 65) with
  | error f => rw [hp] at h; cases h
  | ok event =>
    rw [hp] at h
    simp only at h
    cases hb : canonicalJson event with
    | error f => rw [hb] at h; cases h
    | ok body =>
      rw [hb] at h
      simp only at h
      split_ifs at h with h4
      split at h
      · cases h
      · cases h
      · rename_i hs
        cases h
        have hbody : body = line.drop 65 := not_not.mp h4
        have hget := seqDiffers_false hs
        obtain ⟨fields, rfl⟩ := obj_of_get_seq hget
        have hhash : chainHash H head (line.drop 65) = line.take 64 := not_not.mp h3
        refine ⟨line.drop 65, fields, ?_, ?_, hp, by rw [hb, hbody], hget⟩
        · rw [hhash]
          exact lineText_of_idxOf? (not_not.mp h2)
        · rw [hhash]

/-- Accepted lines are chained, and their events are in normal form. -/
theorem chain_of_checkLines {H : Sha256} {head : Text} {n : Nat} {ls : List Text}
    {es : List JournalEntry} (h : checkLines H head n ls = .ok es) :
    Chain H head n es ls ∧ ∀ e ∈ es, canon e.event = e.event := by
  induction ls generalizing head n es with
  | nil =>
    cases h
    exact ⟨.nil, by simp⟩
  | cons line ls ih =>
    obtain ⟨e, es', rfl, he, hes⟩ := checkLines_cons h
    obtain ⟨body, fields, rfl, rfl, hp, hb, hget⟩ := checkLine_cases he
    obtain ⟨hchain, hcanon⟩ := ih hes
    have hd := distinct_of_parseJson hp
    have hsame : canon (.obj fields) = .obj fields := by
      have hread := (written_of_canonicalJson hb hd).parseJson
      rw [hp] at hread
      exact (Except.ok.inj hread).symm
    refine ⟨.cons hb hd hget hchain, ?_⟩
    intro e he
    rcases List.mem_cons.mp he with rfl | he
    · exact hsame
    · exact hcanon e he

/-! ## One head, one history -/

theorem hexUnit_injective : ∀ a < 16, ∀ b < 16, hexUnit a = hexUnit b → a = b := by decide

theorem toHex_injective {as bs : Bytes} (h : toHex as = toHex bs) : as = bs := by
  induction as generalizing bs with
  | nil =>
    cases bs with
    | nil => rfl
    | cons b bs => cases h
  | cons a as ih =>
    cases bs with
    | nil => cases h
    | cons b bs =>
      have ha := a.toNat_lt
      have hb := b.toNat_lt
      simp only [toHex, List.flatMap_cons, List.cons_append, List.nil_append,
        List.cons.injEq] at h
      obtain ⟨h1, h2, h3⟩ := h
      have hhigh := hexUnit_injective _ (by omega) _ (by omega) h1
      have hlow := hexUnit_injective _ (by omega) _ (by omega) h2
      have hab : a = b := UInt8.toNat_inj.mp (by omega)
      rw [hab, ih h3]

/-- The bytes that were hashed for the entries after a head. -/
def hashed (head : Text) : List JournalEntry → List Bytes
  | [] => []
  | e :: es =>
    (match canonicalJson e.event with
      | .ok body => [utf8 head ++ utf8 body]
      | .error _ => []) ++ hashed e.head es

/-- SHA-256 tells apart what two journals hashed. -/
def NoCollision (H : Sha256) (es fs : List JournalEntry) : Prop :=
  ∀ x ∈ hashed genesis es, ∀ y ∈ hashed genesis fs, H.digest x = H.digest y → x = y

/-- Before two chains of one length that end in one head, the heads were one
as well, and all events are the same. -/
theorem chain_unique {H : Sha256} {h1 h2 : Text} {n : Nat} {es fs : List JournalEntry}
    {ls ms : List Text} (hh1 : IsHead h1) (hh2 : IsHead h2) (hes : Chain H h1 n es ls)
    (hfs : Chain H h2 n fs ms) (hces : ∀ e ∈ es, canon e.event = e.event)
    (hcfs : ∀ e ∈ fs, canon e.event = e.event) (hlen : es.length = fs.length)
    (hcol : ∀ x ∈ hashed h1 es, ∀ y ∈ hashed h2 fs, H.digest x = H.digest y → x = y)
    (hend : headAfter h1 es = headAfter h2 fs) : es = fs ∧ h1 = h2 := by
  induction hes generalizing h2 fs ms with
  | nil =>
    cases hfs with
    | nil => exact ⟨rfl, hend⟩
    | cons => simp at hlen
  | @cons h1 n fields body es ls hb hd hs _ ih =>
    cases hfs with
    | nil => simp at hlen
    | @cons _ _ fields' body' fs ms hb' hd' hs' htail =>
      simp only [hashed, hb, hb', List.cons_append, List.nil_append, List.forall_mem_cons] at hcol
      obtain ⟨⟨hfirst, -⟩, hrest⟩ := hcol
      obtain ⟨htails, hheads⟩ := ih (isHead_chainHash H h1 body) (isHead_chainHash H h2 body') htail
        (fun e he => hces e (List.mem_cons_of_mem _ he))
        (fun e he => hcfs e (List.mem_cons_of_mem _ he)) (by simpa using hlen)
        (fun x hx => (hrest x hx).2) hend
      have hbytes := hfirst (toHex_injective hheads)
      have hw := written_of_canonicalJson hb hd
      have hw' := written_of_canonicalJson hb' hd'
      rw [← utf8_append hh1.clean.paired, ← utf8_append hh2.clean.paired] at hbytes
      have htexts := utf8_injective (hh1.clean.paired.append hw.clean.paired)
        (hh2.clean.paired.append hw'.clean.paired) hbytes
      obtain ⟨hsame, hbodies⟩ := List.append_inj htexts (by rw [hh1.length, hh2.length])
      have hevents : Value.obj fields = .obj fields' := by
        have hf : canon (.obj fields) = .obj fields := hces _ List.mem_cons_self
        have hf' : canon (.obj fields') = .obj fields' := hcfs _ List.mem_cons_self
        have hp := hw.parseJson
        rw [hbodies, hw'.parseJson, hf, hf'] at hp
        exact (Except.ok.inj hp).symm
      rw [htails, hevents, hheads]
      exact ⟨rfl, hsame⟩

theorem hashed_take_subset (head : Text) (es : List JournalEntry) (n : Nat) :
    ∀ x ∈ hashed head (es.take n), x ∈ hashed head es := by
  induction es generalizing head n with
  | nil => simp
  | cons e es ih =>
    cases n with
    | zero => simp [hashed]
    | succ n =>
      intro x hx
      rw [List.take_succ_cons, hashed, List.mem_append] at hx
      rw [hashed, List.mem_append]
      rcases hx with hx | hx
      · exact Or.inl hx
      · exact Or.inr (ih e.head n x hx)

theorem parseJournal_cases {H : Sha256} {t : Text} {p : ParsedJournal}
    (h : parseJournal H t = .ok p) : ∃ ls, checkLines H genesis 1 ls = .ok p.entries ∧
      p.head = headAfter genesis p.entries ∧ p.seq = p.entries.length := by
  unfold parseJournal at h
  cases hc : checkLines H genesis 1 (t.splitOn newline).dropLast with
  | error f => simp only [hc] at h; cases h
  | ok es =>
    simp only [hc] at h
    cases h
    exact ⟨_, hc, rfl, rfl⟩

/-- Two accepted journals with one head after `n` entries have the same first `n` entries. -/
theorem same_head_same_entries {H : Sha256} {s t : Text} {p q : ParsedJournal}
    (hp : parseJournal H s = .ok p) (hq : parseJournal H t = .ok q)
    (hcol : NoCollision H p.entries q.entries) {n : Nat} (hn : n ≤ p.seq) (hm : n ≤ q.seq)
    (hhead : headAfter genesis (p.entries.take n) = headAfter genesis (q.entries.take n)) :
    p.entries.take n = q.entries.take n := by
  obtain ⟨ls, hls, -, hpseq⟩ := parseJournal_cases hp
  obtain ⟨ms, hms, -, hqseq⟩ := parseJournal_cases hq
  obtain ⟨hpc, hpn⟩ := chain_of_checkLines hls
  obtain ⟨hqc, hqn⟩ := chain_of_checkLines hms
  refine (chain_unique isHead_genesis isHead_genesis (hpc.take n) (hqc.take n)
    (fun e he => hpn e (List.mem_of_mem_take he)) (fun e he => hqn e (List.mem_of_mem_take he))
    ?_ ?_ hhead).1
  · rw [List.length_take, List.length_take]
    omega
  · intro x hx y hy
    exact hcol x (hashed_take_subset _ _ _ x hx) y (hashed_take_subset _ _ _ y hy)

/-! ## The anchor -/

/-- What every answer of the signer carries. -/
structure SignerMeta where
  seq : Nat
  head : Text
deriving DecidableEq, Repr

inductive AnchorCheck
  | ok | regressed | forked
deriving DecidableEq, Repr

def compareAnchor (stored : Option SignerMeta) (seen : SignerMeta) : AnchorCheck :=
  match stored with
  | none => .ok
  | some stored =>
    if seen.seq < stored.seq then .regressed
    else if seen.seq = stored.seq ∧ seen.head ≠ stored.head then .forked
    else .ok

/-- `journal.seq`, `journal.head` -/
def ParsedJournal.meta (p : ParsedJournal) : SignerMeta := ⟨p.seq, p.head⟩

theorem seq_meta (p : ParsedJournal) : p.meta.seq = p.seq := rfl

theorem head_of_compareAnchor {stored seen : SignerMeta} (h : compareAnchor (some stored) seen = .ok)
    (hseq : seen.seq = stored.seq) : seen.head = stored.head := by
  unfold compareAnchor at h
  simp only at h
  split_ifs at h with h1 h2
  by_contra hne
  exact h2 ⟨hseq, hne⟩

theorem same_anchor_same_entries {H : Sha256} {stored : SignerMeta} {s t : Text}
    {p q : ParsedJournal} (hp : parseJournal H s = .ok p) (hq : parseJournal H t = .ok q)
    (hcol : NoCollision H p.entries q.entries) (hps : p.seq = stored.seq)
    (hqs : q.seq = stored.seq) (hpa : compareAnchor (some stored) p.meta = .ok)
    (hqa : compareAnchor (some stored) q.meta = .ok) : p.entries = q.entries := by
  obtain ⟨-, -, hph, hpl⟩ := parseJournal_cases hp
  obtain ⟨-, -, hqh, hql⟩ := parseJournal_cases hq
  have hp1 : p.entries.take p.seq = p.entries := by rw [hpl, List.take_length]
  have hq1 : q.entries.take p.seq = q.entries := by
    rw [show p.seq = q.seq by omega, hql, List.take_length]
  have hhead : p.head = q.head := by
    have h1 : p.head = stored.head := head_of_compareAnchor hpa hps
    have h2 : q.head = stored.head := head_of_compareAnchor hqa hqs
    rw [h1, h2]
  have := same_head_same_entries hp hq hcol (n := p.seq) le_rfl (by omega)
    (by rw [hp1, hq1, ← hph, ← hqh, hhead])
  rwa [hp1, hq1] at this

/-- A journal whose lines fit the reader survives a cut anywhere; and a head,
or an anchor at the number that both journals have reached, fixes their entries. -/
theorem cut_journal_is_recovered_and_head_fixes_history (H : Sha256) :
    (∀ ds j es, Journal.empty.appendAll H ds = .ok (j, es) → BodiesFit 1 ds →
      ∀ k, Recovered H es (j.file.take k)) ∧
    (∀ s t p q n, parseJournal H s = .ok p → parseJournal H t = .ok q →
      NoCollision H p.entries q.entries → n ≤ p.seq → n ≤ q.seq →
      headAfter genesis (p.entries.take n) = headAfter genesis (q.entries.take n) →
      p.entries.take n = q.entries.take n) ∧
    (∀ stored s t p q, parseJournal H s = .ok p → parseJournal H t = .ok q →
      NoCollision H p.entries q.entries → p.seq = stored.seq → q.seq = stored.seq →
      compareAnchor (some stored) p.meta = .ok → compareAnchor (some stored) q.meta = .ok →
      p.entries = q.entries) := by
  refine ⟨?_, ?_, ?_⟩
  · intro ds j es h hfit k
    obtain ⟨ls, hj, hevents⟩ := (holds_empty H).appendAll h
    rw [List.nil_append, List.nil_append] at hj
    exact recovered_of_cut hj ((bodiesFit_iff hevents).mp hfit) k
  · intro s t p q n hp hq hcol hn hm hhead
    exact same_head_same_entries hp hq hcol hn hm hhead
  · intro stored s t p q hp hq hcol hps hqs hpa hqa
    exact same_anchor_same_entries hp hq hcol hps hqs hpa hqa

/-! ## Two histories under one anchor -/

/-- The heads are the hashes of what was hashed. -/
theorem heads_of_chain {H : Sha256} {head : Text} {n : Nat} {es : List JournalEntry}
    {ls : List Text} (h : Chain H head n es ls) :
    es.map (·.head) = (hashed head es).map fun x => toHex (H.digest x) := by
  induction h with
  | nil => rfl
  | cons hb _ _ _ ih => simp [hashed, hb, ih, chainHash]

/-- Heads that differ wherever the hashed bytes differ exclude a collision. -/
theorem noCollision_of_heads {H : Sha256} {s t : Text} {p q : ParsedJournal}
    (hp : parseJournal H s = .ok p) (hq : parseJournal H t = .ok q) {m k : Nat}
    (hm : p.seq = m) (hk : q.seq = k)
    (h : ∀ i < m, ∀ j < k,
      (p.entries.map (·.head))[i]? = (q.entries.map (·.head))[j]? →
        (hashed genesis p.entries)[i]? = (hashed genesis q.entries)[j]?) :
    NoCollision H p.entries q.entries := by
  obtain ⟨ls, hls, -, hpseq⟩ := parseJournal_cases hp
  obtain ⟨ms, hms, -, hqseq⟩ := parseJournal_cases hq
  have hph := heads_of_chain (chain_of_checkLines hls).1
  have hqh := heads_of_chain (chain_of_checkLines hms).1
  have hpl : p.seq = (hashed genesis p.entries).length := by
    simpa [hpseq] using congrArg List.length hph
  have hql : q.seq = (hashed genesis q.entries).length := by
    simpa [hqseq] using congrArg List.length hqh
  intro x hx y hy hxy
  obtain ⟨i, hi, rfl⟩ := List.mem_iff_getElem.mp hx
  obtain ⟨j, hj, rfl⟩ := List.mem_iff_getElem.mp hy
  have hij := h i (by omega) j (by omega) (by simp [hph, hqh, hi, hj, hxy])
  simpa [hi, hj] using hij

/-- A hash for examples that tells short ends apart: the last 32 bytes. -/
def lastBytes : Sha256 where
  digest bs := (bs.reverse ++ List.replicate 32 0).take 32
  size bs := by simp

/-- The text of a journal of two entries. -/
def twoLines (time1 time2 : ℤ) : Text :=
  match Journal.empty.appendAll lastBytes [unfreezeDraft time1, unfreezeDraft time2] with
  | .ok (j, _) => utf8Decode j.file
  | .error _ => []

/-- What the reader finds in it. -/
def twoEntries (time1 time2 : ℤ) : ParsedJournal :=
  match parseJournal lastBytes (twoLines time1 time2) with
  | .ok p => p
  | .error _ => ⟨[], genesis, 0, 0⟩

theorem parse_twoLines {time1 time2 : ℤ}
    (h : (parseJournal lastBytes (twoLines time1 time2)).isOk = true) :
    parseJournal lastBytes (twoLines time1 time2) = .ok (twoEntries time1 time2) := by
  unfold twoEntries
  cases hp : parseJournal lastBytes (twoLines time1 time2) with
  | ok p => rfl
  | error f => rw [hp] at h; cases h

/-- Equal heads of two journals of two entries are heads of equal bytes. -/
def headsTellBytes (p q : ParsedJournal) : Prop :=
  ∀ i < 2, ∀ j < 2, (p.entries.map (·.head))[i]? = (q.entries.map (·.head))[j]? →
    (hashed genesis p.entries)[i]? = (hashed genesis q.entries)[j]?

instance (p q : ParsedJournal) : Decidable (headsTellBytes p q) := by
  unfold headsTellBytes
  infer_instance

/-- What the kernel finds about the samples, all at once: each is read as two entries, whose heads
tell the hashed bytes apart; the first two begin with one entry, and the last with another. -/
theorem samples_are_read :
    ((parseJournal lastBytes (twoLines 1800000000 1800000001)).isOk = true ∧
      (parseJournal lastBytes (twoLines 1800000000 1800000002)).isOk = true ∧
      (parseJournal lastBytes (twoLines 1800000001 1800000003)).isOk = true) ∧
    ((twoEntries 1800000000 1800000001).seq = 2 ∧ (twoEntries 1800000000 1800000002).seq = 2 ∧
      (twoEntries 1800000001 1800000003).seq = 2) ∧
    (headsTellBytes (twoEntries 1800000000 1800000001) (twoEntries 1800000000 1800000002) ∧
      headsTellBytes (twoEntries 1800000000 1800000001) (twoEntries 1800000000 1800000001) ∧
      headsTellBytes (twoEntries 1800000000 1800000002) (twoEntries 1800000001 1800000003)) ∧
    headAfter genesis ((twoEntries 1800000000 1800000001).entries.take 1) =
      headAfter genesis ((twoEntries 1800000000 1800000002).entries.take 1) ∧
    ((twoEntries 1800000000 1800000002).entries.take 1).map (·.head) ≠
      ((twoEntries 1800000001 1800000003).entries.take 1).map (·.head) := by
  decide +kernel

theorem parse_ending_one :
    parseJournal lastBytes (twoLines 1800000000 1800000001) =
      .ok (twoEntries 1800000000 1800000001) := parse_twoLines samples_are_read.1.1

theorem parse_ending_two :
    parseJournal lastBytes (twoLines 1800000000 1800000002) =
      .ok (twoEntries 1800000000 1800000002) := parse_twoLines samples_are_read.1.2.1

theorem parse_beginning_one :
    parseJournal lastBytes (twoLines 1800000001 1800000003) =
      .ok (twoEntries 1800000001 1800000003) := parse_twoLines samples_are_read.1.2.2

theorem seq_ending_one : (twoEntries 1800000000 1800000001).seq = 2 := samples_are_read.2.1.1

theorem seq_ending_two : (twoEntries 1800000000 1800000002).seq = 2 := samples_are_read.2.1.2.1

theorem seq_beginning_one : (twoEntries 1800000001 1800000003).seq = 2 := samples_are_read.2.1.2.2

/-- Two journals that both passed an anchor agree with it, and differ in the
entry that it anchors: only heads of one number are compared. -/
theorem a_passed_anchor_fixes_nothing : ∃ stored p q,
    parseJournal lastBytes (twoLines 1800000000 1800000002) = .ok p ∧
    parseJournal lastBytes (twoLines 1800000001 1800000003) = .ok q ∧
    NoCollision lastBytes p.entries q.entries ∧ stored.seq ≤ p.seq ∧ stored.seq ≤ q.seq ∧
    compareAnchor (some stored) p.meta = .ok ∧ compareAnchor (some stored) q.meta = .ok ∧
    p.entries.take stored.seq ≠ q.entries.take stored.seq := by
  have hpass : ∀ (head : Text) (p : ParsedJournal), p.seq = 2 →
      compareAnchor (some ⟨1, head⟩) p.meta = .ok := by
    intro head p hseq
    simp [compareAnchor, seq_meta, hseq]
  refine ⟨⟨1, headAfter genesis ((twoEntries 1800000000 1800000002).entries.take 1)⟩,
    twoEntries 1800000000 1800000002, twoEntries 1800000001 1800000003,
    parse_ending_two, parse_beginning_one,
    noCollision_of_heads parse_ending_two parse_beginning_one seq_ending_two seq_beginning_one
      samples_are_read.2.2.1.2.2, ?_, ?_, hpass _ _ seq_ending_two, hpass _ _ seq_beginning_one, ?_⟩
  · rw [seq_ending_two]
    exact Nat.le_succ 1
  · rw [seq_beginning_one]
    exact Nat.le_succ 1
  · intro h
    have hheads := congrArg (List.map JournalEntry.head) h
    exact samples_are_read.2.2.2.2 hheads

/-- A journal cut in its second line, two journals with a first entry in
common, and one journal under an anchor at its end. -/
theorem recovery_of_two_lines :
    (∃ j es, Journal.empty.appendAll zeroHash
        [unfreezeDraft 1800000000, unfreezeDraft 1800000001] = .ok (j, es) ∧
      Recovered zeroHash es (j.file.take 150)) ∧
    (twoEntries 1800000000 1800000001).entries.take 1 =
      (twoEntries 1800000000 1800000002).entries.take 1 ∧
    (twoEntries 1800000000 1800000001).entries = (twoEntries 1800000000 1800000001).entries := by
  refine ⟨⟨_, _, rfl, (cut_journal_is_recovered_and_head_fixes_history zeroHash).1 _ _ _ rfl
    two_unfreezes_fit 150⟩, ?_, ?_⟩
  · exact (cut_journal_is_recovered_and_head_fixes_history lastBytes).2.1 _ _ _ _ 1
      parse_ending_one parse_ending_two
      (noCollision_of_heads parse_ending_one parse_ending_two seq_ending_one seq_ending_two
        samples_are_read.2.2.1.1)
      (by rw [seq_ending_one]; exact Nat.le_succ 1) (by rw [seq_ending_two]; exact Nat.le_succ 1)
      samples_are_read.2.2.2.1
  · have hpass : compareAnchor (some (twoEntries 1800000000 1800000001).meta)
        (twoEntries 1800000000 1800000001).meta = .ok := by
      simp [compareAnchor]
    exact (cut_journal_is_recovered_and_head_fixes_history lastBytes).2.2
      (twoEntries 1800000000 1800000001).meta _ _ _ _ parse_ending_one parse_ending_one
      (noCollision_of_heads parse_ending_one parse_ending_one seq_ending_one seq_ending_one
        samples_are_read.2.2.1.2.1) (seq_meta _).symm (seq_meta _).symm
      hpass hpass

end Klick
