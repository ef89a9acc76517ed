-- The socket of the signer (`serve` of `signer/protocol.ts`): chunks of a stream
-- become lines, and a line too long closes the connection. Where the stream is
-- cut into chunks decides nothing about the commands.
import Klick.Executions
import Klick.LineBuffer

open Js LineBuffer

namespace Klick.SocketServer

/-- What went out on the socket. -/
inductive Reply
  | response (r : Response)
  | lineTooLong (seq : ℕ) (head : Text)

/-- A connection: `buf`, whether the socket is destroyed, and what was handed to the signer. -/
structure Connection where
  buf : Text
  destroyed : Bool
  signer : Signer
  /-- The lines given to `handleLine`, in order. -/
  handed : List Text
  replies : List Reply

/-- A connection that was just made. -/
def Connection.new (g : Signer) : Connection := ⟨[], false, g, [], []⟩

section Server

/-! ## The handler of `data` -/

-- `worlds` gives what the world is when a line is handled, by the number of the line.
variable (P : Platform) (scope : By) (worlds : ℕ → World)

/-- `sock.write(handleLine(…))` -/
def Connection.handOver (c : Connection) (line : Text) : Connection :=
  let h := handleLine P scope c.signer (worlds c.handed.length) line
  { c with
    signer := h.signer
    handed := c.handed ++ [line]
    replies := c.replies ++ [.response h.response] }

@[simp] theorem Connection.buf_handOver (c : Connection) (line : Text) :
    (c.handOver P scope worlds line).buf = c.buf := rfl

@[simp] theorem Connection.destroyed_handOver (c : Connection) (line : Text) :
    (c.handOver P scope worlds line).destroyed = c.destroyed := rfl

/-- The loop over the lines of the buffer; a line too long destroys the socket and leaves it. -/
def Connection.drain (c : Connection) : Connection :=
  match _h : nextLine newline c.buf with
  | none => c
  | some (line, rest) =>
    if maxLine < line.length then { c with buf := rest, destroyed := true }
    else if trim line = [] then Connection.drain { c with buf := rest }
    else Connection.drain (({ c with buf := rest } : Connection).handOver P scope worlds line)
termination_by c.buf.length
decreasing_by
  · exact length_of_nextLine _h
  · exact length_of_nextLine _h

/-- A destroyed socket gives no more data. -/
def Connection.onData (c : Connection) (chunk : Text) : Connection :=
  if c.destroyed then c
  else
    let c := Connection.drain P scope worlds { c with buf := c.buf ++ chunk }
    if c.destroyed then c
    else if maxLine < c.buf.length then
      { c with
        replies := c.replies ++ [.lineTooLong c.signer.journal.seq c.signer.journal.head]
        destroyed := true }
    else c

/-- A connection after chunks of its stream. -/
def serve (g : Signer) (chunks : List Text) : Connection :=
  chunks.foldl (Connection.onData P scope worlds) (.new g)

/-! ## What the stream says -/

/-- A line that is handled when its turn comes. -/
def isRequest (line : Text) : Bool := trim line ≠ []

def fitsLine (line : Text) : Bool := line.length ≤ maxLine

/-- The requests of lines: those before the first line too long that are not blank. -/
def requestsOf (ls : List Text) : List Text := (ls.takeWhile fitsLine).filter isRequest

/-- The requests of a stream. -/
def requests (stream : Text) : List Text := requestsOf (lines newline stream)

/-- A stream has no line too long, not even the unfinished one. -/
def AllFit (stream : Text) : Prop :=
  (∀ l ∈ lines newline stream, fitsLine l = true) ∧ fitsLine (unfinished newline stream) = true

/-- The signer after requests, from the number of the first one on. -/
def afterRequests (g : Signer) (n : ℕ) : List Text → Signer
  | [] => g
  | l :: ls => afterRequests (handleLine P scope g (worlds n) l).signer (n + 1) ls

theorem afterRequests_append (g : Signer) (n : ℕ) (ls ms : List Text) :
    afterRequests P scope worlds g n (ls ++ ms) =
      afterRequests P scope worlds (afterRequests P scope worlds g n ls) (n + ls.length) ms := by
  induction ls generalizing g n with
  | nil => rfl
  | cons l ls ih =>
    simp only [List.cons_append, afterRequests, List.length_cons]
    rw [ih]
    congr 1
    omega

/-! ## The loop -/

theorem drain_none {c : Connection} (h : nextLine newline c.buf = none) :
    c.drain P scope worlds = c := by
  rw [Connection.drain.eq_def]
  split
  · rfl
  · rename_i line rest h'
    simp [h] at h'

theorem drain_some {c : Connection} {line rest : Text}
    (h : nextLine newline c.buf = some (line, rest)) :
    c.drain P scope worlds =
      if fitsLine line = false then { c with buf := rest, destroyed := true }
      else if isRequest line = false then Connection.drain P scope worlds { c with buf := rest }
      else Connection.drain P scope worlds
        (({ c with buf := rest } : Connection).handOver P scope worlds line) := by
  rw [Connection.drain.eq_def]
  split
  · rename_i h'
    simp [h] at h'
  · rename_i line' rest' h'
    rw [h] at h'
    cases h'
    simp [fitsLine, isRequest]

/-- What the loop does with the lines of the buffer. -/
structure Drained (c c' : Connection) : Prop where
  handed : c'.handed = c.handed ++ requests c.buf
  signer : c'.signer = afterRequests P scope worlds c.signer c.handed.length (requests c.buf)
  destroyed : c'.destroyed = true ↔ ∃ l ∈ lines newline c.buf, fitsLine l = false
  buf : c'.destroyed = false → c'.buf = unfinished newline c.buf

theorem drained (c : Connection) (hc : c.destroyed = false) :
    Drained P scope worlds c (c.drain P scope worlds) := by
  generalize hn : c.buf.length = n
  induction n using Nat.strong_induction_on generalizing c with
  | _ n ih =>
    cases h : nextLine newline c.buf with
    | none =>
      obtain ⟨hl, hu⟩ := nextLine_eq_none h
      rw [drain_none P scope worlds h]
      refine ⟨?_, ?_, ?_, fun _ => hu.symm⟩
      · simp [requests, requestsOf, hl]
      · simp [requests, requestsOf, hl, afterRequests]
      · simp [hl, hc]
    | some p =>
      obtain ⟨line, rest⟩ := p
      have hl := lines_of_nextLine h
      have hu := unfinished_of_nextLine h
      have hlt := length_of_nextLine h
      rw [drain_some P scope worlds h]
      split_ifs with hfit hreq
      · refine ⟨?_, ?_, ?_, fun hd => by cases hd⟩
        · simp [requests, requestsOf, hl, hfit]
        · simp [requests, requestsOf, hl, hfit, afterRequests]
        · simp [hl, hfit]
      · simp only [Bool.not_eq_false] at hfit
        obtain ⟨h1, h2, h3, h4⟩ := ih _ (hn ▸ hlt) { c with buf := rest } hc rfl
        have hsame : requests c.buf = requests rest := by
          simp [requests, requestsOf, hl, hfit, hreq]
        refine ⟨hsame ▸ h1, hsame ▸ h2, ?_, fun hd => hu ▸ h4 hd⟩
        rw [h3, hl]
        simp [hfit]
      · simp only [Bool.not_eq_false] at hfit hreq
        obtain ⟨h1, h2, h3, h4⟩ := ih _ (hn ▸ hlt)
          (({ c with buf := rest } : Connection).handOver P scope worlds line) hc rfl
        have hnext : requests c.buf = line :: requests rest := by
          simp [requests, requestsOf, hl, hfit, hreq]
        refine ⟨?_, ?_, ?_, fun hd => hu ▸ h4 hd⟩
        · rw [h1, hnext]
          simp [Connection.handOver]
        · rw [h2, hnext]
          simp [Connection.handOver, afterRequests]
        · rw [h3, hl]
          simp [hfit]

/-! ## The chunks -/

/-- A connection stands as the stream it was given says. -/
structure Follows (g : Signer) (stream : Text) (c : Connection) : Prop where
  handed : c.handed = requests stream
  signer : c.signer = afterRequests P scope worlds g 0 (requests stream)
  destroyed : c.destroyed = false ↔ AllFit stream
  buf : c.destroyed = false → c.buf = unfinished newline stream

theorem follows_new (g : Signer) : Follows P scope worlds g [] (.new g) := by
  refine ⟨rfl, rfl, ?_, fun _ => rfl⟩
  simp [Connection.new, AllFit, fitsLine]

/-- After lines that all fit the rest of the stream decides. -/
theorem requests_append {s : Text} (hs : ∀ l ∈ lines newline s, fitsLine l = true) (t : Text) :
    requests (s ++ t) = requests s ++ requests (unfinished newline s ++ t) := by
  unfold requests requestsOf
  rw [lines_append, List.takeWhile_append_of_pos hs, List.filter_append]
  congr 2
  rw [List.takeWhile_eq_self_iff.mpr hs]

/-- An unfinished line too long begins a line too long. -/
theorem long_of_unfinished {s t l : Text} {ls : List Text}
    (hu : fitsLine (unfinished newline s) = false)
    (h : lines newline (unfinished newline s ++ t) = l :: ls) : fitsLine l = false := by
  have hle := length_unfinished_le h
  simp only [fitsLine, decide_eq_false_iff_not] at hu ⊢
  omega

/-- After a line too long nothing is a request any more. -/
theorem requests_of_not_allFit {s : Text} (hs : ¬ AllFit s) (t : Text) :
    requests (s ++ t) = requests s := by
  unfold requests requestsOf
  rw [lines_append]
  by_cases hl : ∀ l ∈ lines newline s, fitsLine l = true
  · -- The unfinished line is too long, and so is the line it becomes.
    have hu : fitsLine (unfinished newline s) = false := by
      unfold AllFit at hs
      simpa using fun hu => hs ⟨hl, hu⟩
    have hnone : (lines newline (unfinished newline s ++ t)).takeWhile fitsLine = [] := by
      cases h : lines newline (unfinished newline s ++ t) with
      | nil => rfl
      | cons l ls => simp [long_of_unfinished hu h]
    rw [List.takeWhile_append_of_pos hl, hnone, List.takeWhile_eq_self_iff.mpr hl, List.append_nil]
  · congr 1
    rw [List.takeWhile_append, if_neg]
    intro hlen
    exact hl (List.takeWhile_eq_self_iff.mp (List.takeWhile_prefix _ |>.eq_of_length hlen))

theorem fits_of_allFit {s t : Text} (h : AllFit (unfinished newline s ++ t)) :
    fitsLine (unfinished newline s) = true := by
  by_contra hu
  rw [Bool.not_eq_true] at hu
  cases hl : lines newline (unfinished newline s ++ t) with
  | nil =>
    have hrest := h.2
    rw [unfinished_eq_self hl] at hrest
    simp only [fitsLine, decide_eq_false_iff_not, decide_eq_true_eq, List.length_append] at hu hrest
    omega
  | cons l ls =>
    have hlong := long_of_unfinished hu hl
    simp [h.1 l (by simp [hl])] at hlong

theorem allFit_append {s t : Text} : AllFit (s ++ t) ↔
    AllFit s ∧ AllFit (unfinished newline s ++ t) := by
  have hsplit : AllFit (s ++ t) ↔ (∀ l ∈ lines newline s, fitsLine l = true) ∧
      AllFit (unfinished newline s ++ t) := by
    unfold AllFit
    rw [lines_append, unfinished_append, List.forall_mem_append, and_assoc]
  rw [hsplit]
  constructor
  · rintro ⟨h1, h2⟩
    exact ⟨⟨h1, fits_of_allFit h2⟩, h2⟩
  · rintro ⟨⟨h1, -⟩, h2⟩
    exact ⟨h1, h2⟩

/-- A chunk more: the connection stands as the longer stream says. -/
theorem follows_onData {g : Signer} {stream : Text} {c : Connection}
    (h : Follows P scope worlds g stream c) (chunk : Text) :
    Follows P scope worlds g (stream ++ chunk) (c.onData P scope worlds chunk) := by
  unfold Connection.onData
  by_cases hd : c.destroyed = true
  · have hlong : ¬ AllFit stream := by
      rw [← h.destroyed]
      simp [hd]
    rw [if_pos hd]
    refine ⟨?_, ?_, ?_, fun hd' => by simp [hd] at hd'⟩
    · rw [requests_of_not_allFit hlong, h.handed]
    · rw [requests_of_not_allFit hlong, h.signer]
    · rw [allFit_append]
      simp [hd, hlong]
  · rw [if_neg hd]
    rw [Bool.not_eq_true] at hd
    have hfit := h.destroyed.mp hd
    have hreq := requests_append hfit.1 chunk
    obtain ⟨h1, h2, h3, h4⟩ := drained P scope worlds { c with buf := c.buf ++ chunk } hd
    simp only [h.buf hd] at h1 h2 h3 h4
    generalize hc' : Connection.drain P scope worlds { c with buf := c.buf ++ chunk } = c'
    rw [h.buf hd] at hc'
    rw [hc'] at h1 h2 h3 h4
    have hhanded : c'.handed = requests (stream ++ chunk) := by
      rw [h1, h.handed, hreq]
    have hsigner : c'.signer = afterRequests P scope worlds g 0 (requests (stream ++ chunk)) := by
      rw [h2, h.signer, h.handed, hreq, afterRequests_append, Nat.zero_add]
    have hopen : c'.destroyed = false ↔
        ∀ l ∈ lines newline (unfinished newline stream ++ chunk), fitsLine l = true := by
      rw [← Bool.not_eq_true, h3]
      simp
    have hall : AllFit (stream ++ chunk) ↔ c'.destroyed = false ∧ fitsLine c'.buf = true := by
      rw [allFit_append, and_iff_right hfit, AllFit, ← hopen]
      apply and_congr_right
      intro hd'
      rw [h4 hd']
    have hbuf : c'.destroyed = false → c'.buf = unfinished newline (stream ++ chunk) := by
      intro hd'
      exact (h4 hd').trans (unfinished_append _ _).symm
    show Follows P scope worlds g (stream ++ chunk) (if c'.destroyed then c'
      else if maxLine < c'.buf.length then _ else c')
    by_cases hd' : c'.destroyed = true
    · rw [if_pos hd']
      refine ⟨hhanded, hsigner, ?_, hbuf⟩
      rw [hall]
      simp [hd']
    · rw [if_neg hd']
      rw [Bool.not_eq_true] at hd'
      split_ifs with hlong
      · refine ⟨hhanded, hsigner, ?_, fun hd => by cases hd⟩
        rw [hall]
        simp only [fitsLine, decide_eq_true_eq]
        simp
        omega
      · refine ⟨hhanded, hsigner, ?_, hbuf⟩
        rw [hall]
        simp only [fitsLine, decide_eq_true_eq, hd', true_and, true_iff]
        omega

/-- However a stream is cut, the connection stands as the stream says. -/
theorem follows_serve (g : Signer) (chunks : List Text) :
    Follows P scope worlds g chunks.flatten (serve P scope worlds g chunks) := by
  have hrun : ∀ (stream : Text) (c : Connection), Follows P scope worlds g stream c →
      Follows P scope worlds g (stream ++ chunks.flatten)
        (chunks.foldl (Connection.onData P scope worlds) c) := by
    induction chunks with
    | nil =>
      intro stream c h
      simpa using h
    | cons chunk chunks ih =>
      intro stream c h
      rw [List.flatten_cons, ← List.append_assoc]
      exact ih _ _ (follows_onData P scope worlds h chunk)
  exact hrun [] _ (follows_new P scope worlds g)

/-- The commands that reach the signer are the requests of the stream, however it is cut; an open
connection holds the unfinished line, and that one fits. -/
theorem framing_of_stream (g : Signer) (chunks : List Text) :
    (serve P scope worlds g chunks).handed = requests chunks.flatten ∧
      (serve P scope worlds g chunks).handed = (serve P scope worlds g [chunks.flatten]).handed ∧
      (serve P scope worlds g chunks).signer = (serve P scope worlds g [chunks.flatten]).signer ∧
      ∀ n, (serve P scope worlds g (chunks.take n)).destroyed = false →
        (serve P scope worlds g (chunks.take n)).buf =
            unfinished newline (chunks.take n).flatten ∧
          (serve P scope worlds g (chunks.take n)).buf.length ≤ maxLine := by
  have hcut := follows_serve P scope worlds g chunks
  have hone := follows_serve P scope worlds g [chunks.flatten]
  rw [List.flatten_singleton] at hone
  refine ⟨hcut.handed, ?_, ?_, ?_⟩
  · rw [hcut.handed, hone.handed]
  · rw [hcut.signer, hone.signer]
  · intro n hd
    have h := follows_serve P scope worlds g (chunks.take n)
    have hfit := (h.destroyed.mp hd).2
    refine ⟨h.buf hd, ?_⟩
    rw [h.buf hd]
    simpa [fitsLine] using hfit

/-- A chunk without an end of line stays in the buffer of a new connection. -/
theorem buf_of_open (g : Signer) {chunk : Text} (h : newline ∉ chunk) :
    (serve P scope worlds g [chunk]).buf = chunk := by
  have hnone : nextLine newline chunk = none := by
    simp only [nextLine, if_neg h]
  unfold serve
  simp only [List.foldl_cons, List.foldl_nil, Connection.onData, Connection.new,
    Bool.false_eq_true, if_false, List.nil_append]
  rw [drain_none P scope worlds hnone]
  simp only [Bool.false_eq_true, if_false]
  split_ifs
  · rfl
  · rfl

end Server

/-- A chunk too long stays in the buffer of the connection that it closes. -/
theorem buffer_of_long_chunk :
    maxLine < (serve samplePlatform .app (fun n => sampleWorld n 0 0) sampleStart
      [List.replicate (maxLine + 1) (ch 'a')]).buf.length := by
  have hopen : newline ∉ List.replicate (maxLine + 1) (ch 'a') := by
    intro hmem
    exact absurd (List.eq_of_mem_replicate hmem) (by decide)
  rw [buf_of_open _ _ _ _ hopen, List.length_replicate]
  exact Nat.lt_succ_self maxLine

end Klick.SocketServer
