-- The signer's journal (`signer/journal.ts`): one line for each event, chained
-- by SHA-256. The writer bounds the body of a line, the reader bounds the
-- line with its hash, so the longest bodies are written and never read.
import Klick.CanonicalJson

open Js

namespace Klick

/-! ## The chain -/

/-- SHA-256, as far as its length goes: 32 bytes for any bytes. -/
structure Sha256 where
  digest : Bytes → Bytes
  size : ∀ bs, (digest bs).length = 32

/-- `digest("hex")` -/
def toHex (bs : Bytes) : Text :=
  bs.flatMap fun b => [hexUnit (b.toNat / 16), hexUnit (b.toNat % 16)]

/-- `GENESIS` -/
def genesis : Text := List.replicate 64 (ch '0')

/-- `MAX_LINE` -/
def maxLine : Nat := 1024 * 1024

def tab : UInt16 := 9

def newline : UInt16 := 10

def chainHash (H : Sha256) (prev body : Text) : Text :=
  toHex (H.digest (utf8 prev ++ utf8 body))

/-! ## Reading -/

/-- The code of a `JournalError`. -/
inductive JournalCode
  | hash | format | sequence | size
deriving DecidableEq, Repr

/-- What reading or writing the journal throws. -/
inductive JournalFailure
  | journal (code : JournalCode) (line : Nat)
  | thrown (e : Exn)
deriving DecidableEq, Repr

structure JournalEntry where
  seq : Nat
  head : Text
  event : Value

structure ParsedJournal where
  entries : List JournalEntry
  head : Text
  seq : Nat
  tornBytes : Nat

/-- `event.seq !== n`, which throws on null. -/
def seqDiffers (event : Value) (n : Nat) : Except JournalFailure Bool :=
  match event with
  | .null => .error (.thrown .typeError)
  | _ =>
    match event.get (js "seq") with
    | .num q => .ok (q ≠ .fin n)
    | _ => .ok true

/-- One turn of the loop of `parseJournal`. -/
def checkLine (H : Sha256) (head : Text) (n : Nat) (line : Text) :
    Except JournalFailure JournalEntry :=
  if maxLine < line.length then .error (.journal .size n)
  else if line.idxOf? tab ≠ some 64 then .error (.journal .format n)
  else if chainHash H head (line.drop 65) ≠ line.take 64 then .error (.journal .hash n)
  else
    match parseJson (line.drop 65) with
    | .error _ => .error (.journal .format n)
    | .ok event =>
      match canonicalJson event with
      | .error e => .error (.thrown e)
      | .ok body =>
        if body ≠ line.drop 65 then .error (.journal .format n)
        else
          match seqDiffers event n with
          | .error e => .error e
          | .ok true => .error (.journal .sequence n)
          | .ok false => .ok ⟨n, line.take 64, event⟩

/-- The loop of `parseJournal` from line `n` on. -/
def checkLines (H : Sha256) (head : Text) (n : Nat) :
    List Text → Except JournalFailure (List JournalEntry)
  | [] => .ok []
  | line :: lines => do
    let entry ← checkLine H head n line
    let entries ← checkLines H entry.head (n + 1) lines
    return entry :: entries

/-- The head after some entries. -/
def headAfter (head : Text) (entries : List JournalEntry) : Text :=
  entries.foldl (fun _ e => e.head) head

/-- What stands before the last newline is complete, what stands after it is torn. -/
def parseJournal (H : Sha256) (text : Text) : Except JournalFailure ParsedJournal := do
  let parts := text.splitOn newline
  let entries ← checkLines H genesis 1 parts.dropLast
  return {
    entries := entries
    head := headAfter genesis entries
    seq := entries.length
    tornBytes := (utf8 (parts.getLastD [])).length }

/-! ## Writing -/

/-- An event without its number: an object with distinct keys. -/
structure Draft where
  fields : List (Text × Value)
  distinct : (Value.obj fields).Distinct

/-- `{ ...draft, seq }` -/
def Draft.event (d : Draft) (seq : Nat) : Value :=
  .obj (setField d.fields (js "seq") (.num (.fin seq)))

/-- The file and what the signer remembers of it. -/
structure Journal where
  file : Bytes
  head : Text
  seq : Nat

/-- An empty file. -/
def Journal.empty : Journal := ⟨[], genesis, 0⟩

/-- `${hash}\t${body}` -/
def lineText (hash body : Text) : Text := hash ++ tab :: body

def Journal.append (H : Sha256) (j : Journal) (draft : Draft) :
    Except JournalFailure (Journal × JournalEntry) :=
  match canonicalJson (draft.event (j.seq + 1)) with
  | .error e => .error (.thrown e)
  | .ok body =>
    if maxLine < body.length then .error (.journal .size (j.seq + 1))
    else
      let hash := chainHash H j.head body
      .ok (⟨j.file ++ utf8 (lineText hash body ++ [newline]), hash, j.seq + 1⟩,
        ⟨j.seq + 1, hash, draft.event (j.seq + 1)⟩)

def Journal.appendAll (H : Sha256) (j : Journal) :
    List Draft → Except JournalFailure (Journal × List JournalEntry)
  | [] => .ok (j, [])
  | draft :: drafts => do
    let (j, entry) ← j.append H draft
    let (j, entries) ← j.appendAll H drafts
    return (j, entry :: entries)

/-- `ftruncateSync`, which fills up with zeros what is missing. -/
def truncate (bs : Bytes) (n : Nat) : Bytes := bs.take n ++ List.replicate (n - bs.length) 0

def Journal.open (H : Sha256) (file : Option Bytes) :
    Except JournalFailure (Journal × List JournalEntry) := do
  let bytes := file.getD []
  let text := utf8Decode bytes
  let parsed ← parseJournal H text
  let bytes := if 0 < parsed.tornBytes then
    truncate bytes ((utf8 text).length - parsed.tornBytes) else bytes
  return (⟨bytes, parsed.head, parsed.seq⟩, parsed.entries)

/-! ## The shape of a line -/

theorem toHex_length (bs : Bytes) : (toHex bs).length = 2 * bs.length := by
  induction bs with
  | nil => rfl
  | cons b bs ih =>
    simp only [toHex, List.flatMap_cons, List.length_append, List.length_cons,
      List.length_nil] at ih ⊢
    omega

theorem isHexLower_hexUnit : ∀ d < 16, isHexLower (hexUnit d) = true := by decide

theorem isHexLower_toHex {bs : Bytes} : ∀ u ∈ toHex bs, isHexLower u = true := by
  intro u hu
  simp only [toHex, List.mem_flatMap, List.mem_cons, List.not_mem_nil, or_false] at hu
  obtain ⟨b, -, hb⟩ := hu
  have := b.toNat_lt
  rcases hb with rfl | rfl
  · exact isHexLower_hexUnit _ (by omega)
  · exact isHexLower_hexUnit _ (by omega)

theorem chainHash_length (H : Sha256) (prev body : Text) : (chainHash H prev body).length = 64 := by
  rw [chainHash, toHex_length, H.size]

/-- A hash or the genesis: 64 digits of lower-case hexadecimal. -/
structure IsHead (t : Text) : Prop where
  length : t.length = 64
  digits : ∀ u ∈ t, isHexLower u = true

theorem isHead_chainHash (H : Sha256) (prev body : Text) : IsHead (chainHash H prev body) :=
  ⟨chainHash_length H prev body, isHexLower_toHex⟩

theorem isHead_genesis : IsHead genesis := by
  refine ⟨by simp [genesis], ?_⟩
  intro u hu
  rw [List.eq_of_mem_replicate hu]
  decide

theorem IsHead.clean {t : Text} (h : IsHead t) : Clean t := by
  refine clean_ascii fun u hu => ?_
  have hv := isVisible_of_isHexLower (h.digits u hu)
  simp only [isVisible, Bool.and_eq_true, decide_eq_true_eq] at hv
  omega

theorem Clean.not_mem {t : Text} (h : Clean t) {u : UInt16} (hu : u.toNat < 32) : u ∉ t := by
  intro hmem
  have := h.printable u hmem
  omega

theorem idxOf?_append_cons {t : Text} {u : UInt16} (h : u ∉ t) (r : Text) :
    (t ++ u :: r).idxOf? u = some t.length := by
  induction t with
  | nil => simp [List.idxOf?_cons]
  | cons v t ih =>
    simp only [List.mem_cons, not_or] at h
    simp [List.idxOf?_cons, Ne.symm h.1, ih h.2]

theorem idxOf?_tab {hash body : Text} (h : IsHead hash) :
    (lineText hash body).idxOf? tab = some 64 := by
  rw [lineText, idxOf?_append_cons (h.clean.not_mem (by decide)), h.length]

theorem take_lineText {hash body : Text} (h : IsHead hash) : (lineText hash body).take 64 = hash := by
  rw [lineText, ← h.length, List.take_left]

theorem drop_lineText {hash body : Text} (h : IsHead hash) : (lineText hash body).drop 65 = body := by
  have : lineText hash body = (hash ++ [tab]) ++ body := by simp [lineText]
  rw [this, List.drop_left' (by simp [h.length])]

theorem lineText_length {hash body : Text} (h : IsHead hash) :
    (lineText hash body).length = 65 + body.length := by
  simp only [lineText, List.length_append, List.length_cons, h.length]
  omega

/-- The reader on a line of the writer's shape. -/
theorem checkLine_lineText (H : Sha256) (head : Text) (n : Nat) (body : Text) :
    checkLine H head n (lineText (chainHash H head body) body) =
      if maxLine < 65 + body.length then .error (.journal .size n)
      else
        match parseJson body with
        | .error _ => .error (.journal .format n)
        | .ok event =>
          match canonicalJson event with
          | .error e => .error (.thrown e)
          | .ok again =>
            if again ≠ body then .error (.journal .format n)
            else
              match seqDiffers event n with
              | .error e => .error e
              | .ok true => .error (.journal .sequence n)
              | .ok false => .ok ⟨n, chainHash H head body, event⟩ := by
  have hh := isHead_chainHash H head body
  unfold checkLine
  rw [lineText_length hh, idxOf?_tab hh, take_lineText hh, drop_lineText hh]
  simp

/-! ## Chained lines -/

/-- Entries and their lines, from a head and a number on: each body is the
canonical text of its event, each hash that of the head before and the body. -/
inductive Chain (H : Sha256) : Text → Nat → List JournalEntry → List Text → Prop
  | nil {head : Text} {n : Nat} : Chain H head n [] []
  | cons {head : Text} {n : Nat} {fields : List (Text × Value)} {body : Text}
      {entries : List JournalEntry} {lines : List Text} :
      canonicalJson (.obj fields) = .ok body → (Value.obj fields).Distinct →
      (Value.obj fields).get (js "seq") = .num (.fin n) →
      Chain H (chainHash H head body) (n + 1) entries lines →
      Chain H head n (⟨n, chainHash H head body, .obj fields⟩ :: entries)
        (lineText (chainHash H head body) body :: lines)

/-- The entry as `JSON.parse` gives it back: without undefined fields, keys sorted. -/
def JournalEntry.read (e : JournalEntry) : JournalEntry := { e with event := canon e.event }

/-- A text that can stand between two newlines and survives UTF-8. -/
structure OneLine (t : Text) : Prop where
  paired : Paired t
  noNewline : newline ∉ t

/-- The text of a file of lines. -/
def unlines (lines : List Text) : Text := lines.flatMap fun l => l ++ [newline]

section Chain

variable {H : Sha256}

theorem headAfter_append (head : Text) (es fs : List JournalEntry) :
    headAfter head (es ++ fs) = headAfter (headAfter head es) fs := by
  simp [headAfter, List.foldl_append]

theorem headAfter_read (head : Text) (es : List JournalEntry) :
    headAfter head (es.map JournalEntry.read) = headAfter head es := by
  induction es generalizing head with
  | nil => rfl
  | cons e es ih => exact ih e.head

theorem oneLine_lineText {hash body : Text} (h : IsHead hash) (hb : Clean body) :
    OneLine (lineText hash body) := by
  have htab : Paired (tab :: body) := .unit (by decide) hb.paired
  refine ⟨h.clean.paired.append htab, ?_⟩
  intro hmem
  rcases List.mem_append.mp hmem with hmem | hmem
  · exact h.clean.not_mem (by decide) hmem
  · rcases List.mem_cons.mp hmem with hmem | hmem
    · exact absurd hmem (by decide)
    · exact hb.not_mem (by decide) hmem

theorem Chain.oneLine {head : Text} {n : Nat} {entries : List JournalEntry} {lines : List Text}
    (h : Chain H head n entries lines) : ∀ l ∈ lines, OneLine l := by
  induction h with
  | nil => simp
  | @cons head n fields body entries lines hb hd _ _ ih =>
    intro l hl
    rcases List.mem_cons.mp hl with rfl | hl
    · exact oneLine_lineText (isHead_chainHash H head body) (written_of_canonicalJson hb hd).clean
    · exact ih l hl

theorem Chain.length_eq {head : Text} {n : Nat} {entries : List JournalEntry} {lines : List Text}
    (h : Chain H head n entries lines) : entries.length = lines.length := by
  induction h with
  | nil => rfl
  | cons _ _ _ _ ih => simp [ih]

theorem Chain.seqs {head : Text} {n : Nat} {entries : List JournalEntry} {lines : List Text}
    (h : Chain H head n entries lines) :
    entries.map (·.seq) = List.range' n entries.length := by
  induction h with
  | nil => rfl
  | cons _ _ _ _ ih => simp [List.range'_succ, ih]

theorem Chain.append {head : Text} {n : Nat} {es fs : List JournalEntry} {ls ms : List Text}
    (h : Chain H head n es ls) (h' : Chain H (headAfter head es) (n + es.length) fs ms) :
    Chain H head n (es ++ fs) (ls ++ ms) := by
  induction h with
  | nil => exact h'
  | @cons head n fields body es ls hb hd hs _ ih =>
    have hn : n + (es.length + 1) = n + 1 + es.length := by omega
    rw [List.length_cons, hn] at h'
    exact .cons hb hd hs (ih h')

theorem Chain.take {head : Text} {n : Nat} {es : List JournalEntry} {ls : List Text}
    (h : Chain H head n es ls) (m : Nat) : Chain H head n (es.take m) (ls.take m) := by
  induction h generalizing m with
  | nil => simpa using Chain.nil
  | cons hb hd hs _ ih =>
    cases m with
    | zero => exact .nil
    | succ m => exact .cons hb hd hs (ih m)

/-- The number of the normal form is the number of the event. -/
theorem seqDiffers_canon {fields : List (Text × Value)} {n : Nat} (hd : (Value.obj fields).Distinct)
    (hs : (Value.obj fields).get (js "seq") = .num (.fin n)) :
    seqDiffers (canon (.obj fields)) n = .ok false := by
  have hget := canon_get hd.1 (js "seq")
  rw [hs] at hget
  have hobj : canon (.obj fields) = .obj (sortByKey (canonFields fields)) := rfl
  rw [hobj] at hget ⊢
  simp only [seqDiffers, hget]
  simp [canon]

/-- The reader accepts the chained lines that are short enough. -/
theorem Chain.checkLines {head : Text} {n : Nat} {es : List JournalEntry} {ls : List Text}
    (h : Chain H head n es ls) (hlen : ∀ l ∈ ls, l.length ≤ maxLine) :
    checkLines H head n ls = .ok (es.map JournalEntry.read) := by
  induction h with
  | nil => rfl
  | @cons head n fields body es ls hb hd hs _ ih =>
    have hw := written_of_canonicalJson hb hd
    have hfit := hlen _ List.mem_cons_self
    rw [lineText_length (isHead_chainHash H head body)] at hfit
    have hline : checkLine H head n (lineText (chainHash H head body) body) =
        .ok ⟨n, chainHash H head body, canon (.obj fields)⟩ := by
      rw [checkLine_lineText, if_neg (by omega), hw.parseJson]
      simp only [hw.again, ne_eq, not_true_eq_false, if_false, seqDiffers_canon hd hs]
    have htail := ih fun l hl => hlen l (List.mem_cons_of_mem _ hl)
    rw [Klick.checkLines, hline]
    change (do
      let entries ← Klick.checkLines H (chainHash H head body) (n + 1) ls
      return _ :: entries) = _
    rw [htail]
    rfl

/-- The reader accepts short lines only. -/
theorem length_le_of_checkLine {head : Text} {n : Nat} {line : Text} {e : JournalEntry}
    (h : checkLine H head n line = .ok e) : line.length ≤ maxLine := by
  unfold checkLine at h
  split at h
  · cases h
  · omega

theorem checkLines_cons {head : Text} {n : Nat} {line : Text} {lines : List Text}
    {es : List JournalEntry} (h : checkLines H head n (line :: lines) = .ok es) :
    ∃ e es', es = e :: es' ∧ checkLine H head n line = .ok e ∧
      checkLines H e.head (n + 1) lines = .ok es' := by
  unfold checkLines at h
  cases he : checkLine H head n line with
  | error f => rw [he] at h; cases h
  | ok e =>
    rw [he] at h
    cases hes : checkLines H e.head (n + 1) lines with
    | error f =>
      change (do
        let entries ← checkLines H e.head (n + 1) lines
        return e :: entries) = _ at h
      rw [hes] at h
      cases h
    | ok es' =>
      change (do
        let entries ← checkLines H e.head (n + 1) lines
        return e :: entries) = _ at h
      rw [hes] at h
      cases h
      exact ⟨e, es', rfl, rfl, hes⟩

theorem length_le_of_checkLines {head : Text} {n : Nat} {lines : List Text}
    {es : List JournalEntry} (h : checkLines H head n lines = .ok es) :
    ∀ l ∈ lines, l.length ≤ maxLine := by
  induction lines generalizing head n es with
  | nil => simp
  | cons line lines ih =>
    obtain ⟨e, es', rfl, he, hes⟩ := checkLines_cons h
    intro l hl
    rcases List.mem_cons.mp hl with rfl | hl
    · exact length_le_of_checkLine he
    · exact ih hes l hl

/-- Which lines are short enough, said of the events. -/
theorem Chain.fits_iff {head : Text} {n : Nat} {es : List JournalEntry} {ls : List Text}
    (h : Chain H head n es ls) : (∀ l ∈ ls, l.length ≤ maxLine) ↔
      ∀ e ∈ es, ∀ body, canonicalJson e.event = .ok body → 65 + body.length ≤ maxLine := by
  induction h with
  | nil => simp
  | @cons head n fields body es ls hb _ _ _ ih =>
    simp only [List.forall_mem_cons, ih, lineText_length (isHead_chainHash H head body)]
    refine and_congr_left fun _ => ?_
    constructor
    · intro hfit body' hb'
      rw [hb] at hb'
      cases hb'
      exact hfit
    · intro hfit
      exact hfit body hb

end Chain

/-! ## A file of lines -/

theorem paired_unlines {ls : List Text} (h : ∀ l ∈ ls, OneLine l) : Paired (unlines ls) := by
  induction ls with
  | nil => exact .nil
  | cons l ls ih =>
    have hl := h l List.mem_cons_self
    have hnl : Paired [newline] := .unit (by decide) .nil
    exact (hl.paired.append hnl).append (ih fun m hm => h m (List.mem_cons_of_mem _ hm))

theorem utf8_unlines_append (ls ms : List Text) (h : ∀ l ∈ ls, OneLine l) :
    utf8 (unlines (ls ++ ms)) = utf8 (unlines ls) ++ utf8 (unlines ms) := by
  rw [unlines, List.flatMap_append]
  exact utf8_append (paired_unlines h) _

theorem splitOn_unlines {ls : List Text} (h : ∀ l ∈ ls, OneLine l) {t : Text} (ht : newline ∉ t) :
    (unlines ls ++ t).splitOn newline = ls ++ [t] := by
  induction ls with
  | nil => exact List.splitOn_eq_singleton ht
  | cons l ls ih =>
    have hl := h l List.mem_cons_self
    have hcons : unlines (l :: ls) ++ t = l ++ newline :: (unlines ls ++ t) := by
      simp [unlines]
    rw [hcons, List.splitOn_append_cons_self_of_not_mem hl.noNewline,
      ih fun m hm => h m (List.mem_cons_of_mem _ hm)]
    rfl

/-- The reader on complete lines and what follows them. -/
theorem parseJournal_unlines (H : Sha256) {ls : List Text} (h : ∀ l ∈ ls, OneLine l) {t : Text}
    (ht : newline ∉ t) : parseJournal H (unlines ls ++ t) =
      (checkLines H genesis 1 ls).map fun es =>
        ⟨es, headAfter genesis es, es.length, (utf8 t).length⟩ := by
  unfold parseJournal
  rw [splitOn_unlines h ht]
  simp only [List.dropLast_concat, List.getLastD_concat]
  cases checkLines H genesis 1 ls <;> rfl

/-! ## What the signer writes -/

/-- The event of a draft has the number it is given. -/
theorem Draft.event_seq (d : Draft) (n : Nat) : (d.event n).get (js "seq") = .num (.fin n) := by
  simp [Draft.event, lookup_setField_self]

theorem Draft.event_distinct (d : Draft) (n : Nat) : (d.event n).Distinct :=
  distinct_setField d.distinct _ trivial

/-- An accepted draft is the next entry, and its line is at the end of the file. -/
theorem append_cases {H : Sha256} {j j' : Journal} {d : Draft} {e : JournalEntry}
    (h : j.append H d = .ok (j', e)) :
    ∃ body, canonicalJson (d.event (j.seq + 1)) = .ok body ∧ body.length ≤ maxLine ∧
      e = ⟨j.seq + 1, chainHash H j.head body, d.event (j.seq + 1)⟩ ∧
      j' = ⟨j.file ++ utf8 (lineText e.head body ++ [newline]), e.head, j.seq + 1⟩ := by
  unfold Journal.append at h
  split at h
  · cases h
  · rename_i body hb
    split at h
    · cases h
    · cases h
      exact ⟨body, hb, by omega, rfl, rfl⟩

theorem appendAll_cons {H : Sha256} {j j' : Journal} {d : Draft} {ds : List Draft}
    {es : List JournalEntry} (h : j.appendAll H (d :: ds) = .ok (j', es)) :
    ∃ j1 e es', es = e :: es' ∧ j.append H d = .ok (j1, e) ∧
      j1.appendAll H ds = .ok (j', es') := by
  unfold Journal.appendAll at h
  cases h1 : j.append H d with
  | error f => rw [h1] at h; cases h
  | ok p =>
    obtain ⟨j1, e⟩ := p
    rw [h1] at h
    change (do
      let (j, entries) ← j1.appendAll H ds
      return (j, e :: entries)) = _ at h
    cases h2 : j1.appendAll H ds with
    | error f => rw [h2] at h; cases h
    | ok p =>
      obtain ⟨j2, es'⟩ := p
      rw [h2] at h
      cases h
      exact ⟨j1, e, es', rfl, rfl, h2⟩

/-- The file is the lines of the entries, and the signer remembers the last of them. -/
structure Journal.Holds (H : Sha256) (j : Journal) (es : List JournalEntry) (ls : List Text) :
    Prop where
  chain : Chain H genesis 1 es ls
  file : j.file = utf8 (unlines ls)
  head : j.head = headAfter genesis es
  seq : j.seq = es.length

theorem holds_empty (H : Sha256) : Journal.empty.Holds H [] [] :=
  ⟨.nil, rfl, rfl, rfl⟩

theorem Journal.Holds.append {H : Sha256} {j j' : Journal} {es : List JournalEntry}
    {ls : List Text} (hj : j.Holds H es ls) {d : Draft} {e : JournalEntry}
    (h : j.append H d = .ok (j', e)) :
    ∃ l, j'.Holds H (es ++ [e]) (ls ++ [l]) ∧ e.event = d.event (es.length + 1) := by
  obtain ⟨body, hb, -, rfl, rfl⟩ := append_cases h
  have hn : j.seq + 1 = 1 + es.length := by
    rw [hj.seq]
    omega
  have hc : Chain H j.head (1 + es.length) [⟨j.seq + 1, chainHash H j.head body, d.event (j.seq + 1)⟩]
      [lineText (chainHash H j.head body) body] := by
    rw [hn] at hb ⊢
    exact .cons hb (d.event_distinct _) (d.event_seq _) .nil
  refine ⟨_, ⟨hj.chain.append (by rw [← hj.head]; exact hc), ?_, ?_, ?_⟩, by rw [hj.seq]⟩
  · rw [utf8_unlines_append _ _ hj.chain.oneLine, ← hj.file]
    simp [unlines]
  · rw [headAfter_append]
    rfl
  · rw [List.length_append, ← hj.seq]
    rfl

/-- A run of appends goes on with the lines of the file. -/
theorem Journal.Holds.appendAll {H : Sha256} {j j' : Journal} {es es' : List JournalEntry}
    {ls : List Text} (hj : j.Holds H es ls) {ds : List Draft}
    (h : j.appendAll H ds = .ok (j', es')) :
    ∃ ls', j'.Holds H (es ++ es') (ls ++ ls') ∧
      es'.map (·.event) = ds.mapIdx fun i d => d.event (es.length + 1 + i) := by
  induction ds generalizing j es es' ls with
  | nil =>
    cases h
    exact ⟨[], by simpa using hj, rfl⟩
  | cons d ds ih =>
    obtain ⟨j1, e, es1, rfl, h1, h2⟩ := appendAll_cons h
    obtain ⟨l, hj1, he⟩ := hj.append h1
    obtain ⟨ls', hj', hevents⟩ := ih hj1 h2
    refine ⟨l :: ls', by simpa using hj', ?_⟩
    rw [List.map_cons, hevents, List.mapIdx_cons, he]
    congr 1
    apply List.mapIdx_eq_mapIdx_iff.mpr
    intro i hi
    congr 1
    rw [List.length_append, List.length_singleton]
    omega

/-! ## Reading it back -/

/-- The body of each entry leaves room for its hash and the tab within the line. -/
def EntriesFit (es : List JournalEntry) : Prop :=
  ∀ e ∈ es, ∀ body, canonicalJson e.event = .ok body → 65 + body.length ≤ maxLine

theorem Journal.Holds.parseJournal_eq {H : Sha256} {j : Journal} {es : List JournalEntry}
    {ls : List Text} (hj : j.Holds H es ls) : parseJournal H (utf8Decode j.file) =
      (checkLines H genesis 1 ls).map fun es => ⟨es, headAfter genesis es, es.length, 0⟩ := by
  rw [hj.file, utf8Decode_utf8 (paired_unlines hj.chain.oneLine), ← List.append_nil (unlines ls)]
  exact parseJournal_unlines H hj.chain.oneLine (by simp)

/-- The reader on a file of lines that are short enough. -/
theorem Journal.Holds.parse {H : Sha256} {j : Journal} {es : List JournalEntry} {ls : List Text}
    (hj : j.Holds H es ls) (hfit : EntriesFit es) : parseJournal H (utf8Decode j.file) =
      .ok ⟨es.map JournalEntry.read, j.head, j.seq, 0⟩ := by
  rw [hj.parseJournal_eq, hj.chain.checkLines (hj.chain.fits_iff.mpr hfit)]
  simp only [Except.map, headAfter_read, List.length_map, hj.head, hj.seq]

theorem Journal.Holds.fit_of_parse {H : Sha256} {j : Journal} {es : List JournalEntry}
    {ls : List Text} (hj : j.Holds H es ls) {p : ParsedJournal}
    (h : parseJournal H (utf8Decode j.file) = .ok p) : EntriesFit es := by
  rw [hj.parseJournal_eq] at h
  cases hc : checkLines H genesis 1 ls with
  | error f => rw [hc] at h; cases h
  | ok es' => exact hj.chain.fits_iff.mp (length_le_of_checkLines hc)

/-- The file reads back as what was appended: the events up to undefined
fields and the order of keys, numbered from one, with the heads returned and
nothing torn; and the next start opens it as it is. -/
structure ReadsBackAs (H : Sha256) (ds : List Draft) (j : Journal) (es : List JournalEntry) :
    Prop where
  parsed : parseJournal H (utf8Decode j.file) = .ok ⟨es.map JournalEntry.read, j.head, j.seq, 0⟩
  events : es.map (·.event) = ds.mapIdx fun i d => d.event (1 + i)
  seqs : es.map (·.seq) = List.range' 1 ds.length
  lastHead : j.head = headAfter genesis es
  opens : Journal.open H (some j.file) = .ok (j, es.map JournalEntry.read)

/-- Each body leaves room for its hash and the tab within the line, the drafts
numbered from `n` on. -/
def BodiesFit (n : Nat) (ds : List Draft) : Prop :=
  ∀ (i : Nat) (d : Draft) (body : Text), ds[i]? = some d →
    canonicalJson (d.event (n + i)) = .ok body → body.length ≤ maxLine - 65

theorem bodiesFit_iff {n : Nat} {ds : List Draft} {es : List JournalEntry}
    (h : es.map (·.event) = ds.mapIdx fun i d => d.event (n + i)) :
    BodiesFit n ds ↔ EntriesFit es := by
  have hmem : EntriesFit es ↔ ∀ v ∈ ds.mapIdx fun i d => d.event (n + i), ∀ body,
      canonicalJson v = .ok body → 65 + body.length ≤ maxLine := by
    rw [← h]
    simp [EntriesFit]
  rw [hmem]
  have hmax : maxLine = 1048576 := rfl
  constructor
  · intro hfit v hv body hb
    obtain ⟨i, hi, rfl⟩ := List.mem_mapIdx.mp hv
    have := hfit i ds[i] body (List.getElem?_eq_getElem hi) hb
    omega
  · intro hfit i d body hd hb
    obtain ⟨hi, rfl⟩ := List.getElem?_eq_some_iff.mp hd
    have := hfit _ (List.mem_mapIdx.mpr ⟨i, hi, rfl⟩) body hb
    omega

/-- The journal that the signer wrote reads back exactly when no body
comes within 65 units of the bound of the writer. -/
theorem written_journal_reads_back_iff (H : Sha256) (ds : List Draft) (j : Journal)
    (es : List JournalEntry) (h : Journal.empty.appendAll H ds = .ok (j, es)) :
    ReadsBackAs H ds j es ↔ BodiesFit 1 ds := by
  obtain ⟨ls, hj, hevents⟩ := (holds_empty H).appendAll h
  rw [List.nil_append, List.nil_append] at hj
  have hlen : es.length = ds.length := by simpa using congrArg List.length hevents
  have hfit : BodiesFit 1 ds ↔ EntriesFit es := bodiesFit_iff hevents
  rw [hfit]
  constructor
  · intro hr
    exact hj.fit_of_parse hr.parsed
  · intro hfits
    have hp := hj.parse hfits
    refine ⟨hp, hevents, ?_, hj.head, ?_⟩
    · rw [← hlen]
      exact hj.chain.seqs
    · unfold Journal.open
      simp only [Option.getD_some]
      rw [hp]
      rfl

/-- A hash for examples. -/
def zeroHash : Sha256 := ⟨fun _ => List.replicate 32 0, by simp⟩

/-- An event of the kind with no data but its time. -/
def unfreezeDraft (time : ℤ) : Draft where
  fields := named [("type", .text "unfreeze"), ("at", .int time)]
  distinct := by
    refine ⟨?_, trivial, trivial, trivial⟩
    rw [keys_named]
    simp only [List.map_cons, List.map_nil]
    decide

theorem two_unfreezes_fit :
    BodiesFit 1 [unfreezeDraft 1800000000, unfreezeDraft 1800000001] := by
  intro i d body hd hb
  rcases i with _ | _ | i
  · cases hd
    cases hb
    decide
  · cases hd
    cases hb
    decide
  · cases hd

theorem two_entries_read_back : ∃ j es, Journal.empty.appendAll zeroHash
      [unfreezeDraft 1800000000, unfreezeDraft 1800000001] = .ok (j, es) ∧
    ReadsBackAs zeroHash [unfreezeDraft 1800000000, unfreezeDraft 1800000001] j es :=
  ⟨_, _, rfl, (written_journal_reads_back_iff zeroHash _ _ _ rfl).mpr two_unfreezes_fit⟩

/-! ## A policy that is written and never read -/

/-- A policy as `policy.tighten` takes it, with a field that nothing reads. -/
def notedPolicy (note : Text) : List (Text × Value) := named [
  ("version", .int 2),
  ("prev", .text "9f86d081884c7d659a2feaa0c55ad015a3bf4f1b2b0b822cd15d6c15b0f00a08"),
  ("mode", .text "solo"), ("soloMinKeys", .int 2), ("soloDelaySec", .int 1800),
  ("whitelistCooldownSec", .int 86400), ("approvalWindowSec", .int 3600),
  ("limits", .obj (named [
    ("BTC", .obj (named [("perPayout", .text "100000"), ("perDay", .text "500000")]))])),
  ("feeCaps", .obj (named [("btcSatPerVb", .int 50), ("ethMaxFeeGwei", .int 50)])),
  ("networks", .arr [.text "bitcoin_signet"]), ("liveFunds", .bool false), ("note", .str note)]

theorem notedPolicy_distinct (note : Text) : (Value.obj (notedPolicy note)).Distinct := by
  refine ⟨?_, ?_⟩
  · rw [notedPolicy, keys_named]
    simp only [List.map_cons, List.map_nil]
    decide +kernel
  · have hlimit : (Value.obj (named [("perPayout", .text "100000"),
        ("perDay", .text "500000")])).Distinct := ⟨by decide +kernel, trivial, trivial, trivial⟩
    have hlimits : (Value.obj (named [("BTC", .obj (named [("perPayout", .text "100000"),
        ("perDay", .text "500000")]))])).Distinct := ⟨by decide +kernel, hlimit, trivial⟩
    have hcaps : (Value.obj (named [("btcSatPerVb", .int 50),
        ("ethMaxFeeGwei", .int 50)])).Distinct := ⟨by decide +kernel, trivial, trivial, trivial⟩
    exact ⟨trivial, trivial, trivial, trivial, trivial, trivial, trivial, hlimits, hcaps,
      ⟨trivial, trivial⟩, trivial, trivial, trivial⟩

def notedDraft (note : Text) : Draft where
  fields := named [("type", .text "policy"), ("policy", .obj (notedPolicy note)),
    ("by", .text "app"), ("at", .int 1800000000)]
  distinct := by
    refine ⟨?_, trivial, notedPolicy_distinct note, trivial, trivial, trivial⟩
    rw [keys_named]
    simp only [List.map_cons, List.map_nil]
    decide +kernel

theorem quote_replicate (n : Nat) : (quote (List.replicate n (ch 'x'))).length = n + 2 := by
  have hunits : quoteUnits (List.replicate n (ch 'x')) = List.replicate n (ch 'x') := by
    induction n with
    | zero => rfl
    | succ n ih =>
      cases n with
      | zero => rfl
      | succ n =>
        rw [List.replicate_succ] at ih
        rw [List.replicate_succ, List.replicate_succ, quoteUnits, if_neg (by decide), ih]
        rfl
  simp [quote, hunits]

/-- The length of an object's text, whatever the order of its keys. -/
theorem canonicalJson_obj_length {fs : List (Text × Value)} {ps : List (Text × Text)}
    (h : canonicalPairs fs = .ok ps) (hne : ps ≠ []) : ∃ t, canonicalJson (.obj fs) = .ok t ∧
      t.length = 1 + ps.length + (ps.map fun p => (quote p.1).length + 1 + p.2.length).sum := by
  refine ⟨ch '{' :: (join (ch ',') ((sortByKey ps).map pairText) ++ [ch '}']), ?_, ?_⟩
  · simp only [canonicalJson, h]
    rfl
  · have hperm := (sortByKey_perm ps).map fun p => (quote p.1).length + 1 + p.2.length
    have hlen := (sortByKey_perm ps).length_eq
    have hjoin := @join_length (ch ',') ((sortByKey ps).map pairText) (by
      intro h0
      rw [List.map_eq_nil_iff] at h0
      rw [h0] at hlen
      exact hne (List.length_eq_zero_iff.mp hlen.symm))
    have hmap : ((sortByKey ps).map pairText).map List.length =
        (sortByKey ps).map fun p => (quote p.1).length + 1 + p.2.length := by
      rw [List.map_map]
      apply List.map_congr_left
      intro p _
      simp only [Function.comp, pairText, List.length_append, List.length_cons]
      omega
    rw [hmap, hperm.sum_eq, List.length_map, hlen] at hjoin
    simp only [List.length_cons, List.length_append, List.length_nil]
    omega

/-- The texts of the fields of the policy, the note left out. -/
def notedTexts : List (Text × Text) := [
  (js "version", js "2"),
  (js "prev", quote (js "9f86d081884c7d659a2feaa0c55ad015a3bf4f1b2b0b822cd15d6c15b0f00a08")),
  (js "mode", js "\"solo\""), (js "soloMinKeys", js "2"), (js "soloDelaySec", js "1800"),
  (js "whitelistCooldownSec", js "86400"), (js "approvalWindowSec", js "3600"),
  (js "limits", js "\x7b\"BTC\":\x7b\"perDay\":\"500000\",\"perPayout\":\"100000\"\x7d\x7d"),
  (js "feeCaps", js "\x7b\"btcSatPerVb\":50,\"ethMaxFeeGwei\":50\x7d"),
  (js "networks", js "[\"bitcoin_signet\"]"), (js "liveFunds", js "false")]

theorem notedPolicy_length (note : Text) : ∃ policy,
    canonicalJson (.obj (notedPolicy note)) = .ok policy ∧
      policy.length = 353 + (quote note).length := by
  have hpairs : canonicalPairs (notedPolicy note) =
      .ok (notedTexts ++ [(js "note", quote note)]) := by
    simp only [notedPolicy, notedTexts, named, List.map_cons, List.map_nil, Value.text]
    repeat rw [js_ofList]
    rfl
  obtain ⟨policy, hp, hlen⟩ := canonicalJson_obj_length hpairs (by simp)
  refine ⟨policy, hp, ?_⟩
  have hsum : (notedTexts.map fun p => (quote p.1).length + 1 + p.2.length).sum = 333 := by
    unfold notedTexts
    repeat rw [js_ofList]
    decide +kernel
  have hnote : (quote (js "note")).length = 6 := by decide +kernel
  have hcount : notedTexts.length = 11 := rfl
  rw [hlen, List.map_append, List.sum_append, hsum, List.length_append, hcount]
  simp only [List.map_cons, List.map_nil, List.sum_cons, List.sum_nil, List.length_cons,
    List.length_nil, hnote]
  omega

/-- The length of the event is the length of the note and what stands around it. -/
theorem notedDraft_length (note : Text) : ∃ body,
    canonicalJson ((notedDraft note).event 1) = .ok body ∧
      body.length = 415 + (quote note).length := by
  obtain ⟨policy, hp, hlen⟩ := notedPolicy_length note
  have htail : canonicalPairs (named [("policy", .obj (notedPolicy note)), ("by", .text "app"),
      ("at", .int 1800000000), ("seq", .int 1)]) = .ok [(js "policy", policy),
        (js "by", js "\"app\""), (js "at", js "1800000000"), (js "seq", js "1")] := by
    rw [named, List.map_cons, canonicalPairs_cons (by simp), hp]
    rfl
  have hset : (notedDraft note).event 1 =
      .obj ((js "type", .text "policy") :: named [("policy", .obj (notedPolicy note)),
        ("by", .text "app"), ("at", .int 1800000000), ("seq", .int 1)]) := by
    unfold Draft.event
    rw [setField_new]
    · rfl
    · rw [notedDraft, keys_named]
      simp only [List.map_cons, List.map_nil]
      decide
  have hpairs : canonicalPairs ((js "type", .text "policy") ::
      named [("policy", .obj (notedPolicy note)), ("by", .text "app"),
        ("at", .int 1800000000), ("seq", .int 1)]) =
      .ok [(js "type", js "\"policy\""), (js "policy", policy), (js "by", js "\"app\""),
        (js "at", js "1800000000"), (js "seq", js "1")] := by
    rw [canonicalPairs_cons (by simp [Value.text]), htail]
    rfl
  obtain ⟨body, hb, hbl⟩ := canonicalJson_obj_length hpairs (by simp)
  refine ⟨body, by rw [hset, hb], ?_⟩
  have h1 : (quote (js "type")).length + 1 + (js "\"policy\"").length = 15 := rfl
  have h2 : (quote (js "policy")).length = 8 := rfl
  have h3 : (quote (js "by")).length + 1 + (js "\"app\"").length = 10 := rfl
  have h4 : (quote (js "at")).length + 1 + (js "1800000000").length = 15 := rfl
  have h5 : (quote (js "seq")).length + 1 + (js "1").length = 7 := rfl
  rw [hbl]
  simp only [List.map_cons, List.map_nil, List.sum_cons, List.sum_nil, List.length_cons,
    List.length_nil, h1, h2, h3, h4, h5, hlen]
  omega

/-- A body within 64 units of the bound is written, and the next start refuses its line. -/
theorem noted_policy_stops_the_start (H : Sha256) {note : Text}
    (h1 : 1048512 ≤ 415 + (quote note).length) (h2 : 415 + (quote note).length ≤ maxLine) :
    ∃ j es, Journal.empty.appendAll H [notedDraft note] = .ok (j, es) ∧
      Journal.open H (some j.file) = .error (.journal .size 1) := by
  obtain ⟨body, hb, hlen⟩ := notedDraft_length note
  have happend : Journal.empty.append H (notedDraft note) =
      .ok (⟨Journal.empty.file ++ utf8 (lineText (chainHash H genesis body) body ++ [newline]),
        chainHash H genesis body, 1⟩, ⟨1, chainHash H genesis body, (notedDraft note).event 1⟩) := by
    unfold Journal.append
    simp only [Journal.empty, Nat.zero_add]
    rw [hb]
    simp only [if_neg (by omega : ¬ maxLine < body.length)]
  have hall : ∃ j es, Journal.empty.appendAll H [notedDraft note] = .ok (j, es) := by
    unfold Journal.appendAll
    rw [happend]
    exact ⟨_, _, rfl⟩
  obtain ⟨j, es, h⟩ := hall
  refine ⟨j, es, h, ?_⟩
  obtain ⟨ls, hj, hevents⟩ := (holds_empty H).appendAll h
  rw [List.nil_append, List.nil_append] at hj
  have hparse := hj.parseJournal_eq
  have hchain := hj.chain
  cases hchain with
  | nil => simp at hevents
  | @cons _ _ fields body' es' ls' hb' hd hs htail =>
    have hline : checkLine H genesis 1 (lineText (chainHash H genesis body') body') =
        .error (.journal .size 1) := by
      have hbody : body' = body := by
        simp only [List.map_cons, List.mapIdx_cons, List.cons.injEq] at hevents
        have hevent : Value.obj fields = (notedDraft note).event 1 := hevents.1
        rw [hevent, hb] at hb'
        exact (Except.ok.inj hb').symm
      rw [checkLine_lineText, if_pos (by rw [hbody, hlen, show maxLine = 1048576 from rfl]; omega)]
    unfold Journal.open
    simp only [Option.getD_some]
    rw [hparse, checkLines]
    change (do
      let parsed ← Except.map _ (do
        let entry ← checkLine H genesis 1 (lineText (chainHash H genesis body') body')
        let entries ← checkLines H entry.head (1 + 1) ls'
        return entry :: entries)
      _) = _
    rw [hline]
    rfl

/-- A policy with a note of 1048100 letters is such a body. -/
theorem a_noted_policy_is_never_read_back :
    ∃ j es, Journal.empty.appendAll zeroHash [notedDraft (List.replicate 1048100 (ch 'x'))] =
        .ok (j, es) ∧
      Journal.open zeroHash (some j.file) = .error (.journal .size 1) ∧
      ¬ ReadsBackAs zeroHash [notedDraft (List.replicate 1048100 (ch 'x'))] j es := by
  obtain ⟨j, es, h, hopen⟩ := @noted_policy_stops_the_start zeroHash
    (List.replicate 1048100 (ch 'x')) (by rw [quote_replicate]; omega)
    (by rw [quote_replicate, show maxLine = 1048576 from rfl]; omega)
  refine ⟨j, es, h, hopen, ?_⟩
  intro hr
  rw [hr.opens] at hopen
  cases hopen

end Klick
