-- Commands are all or nothing: an error leaves journal and state as they were,
-- and what was recorded is folded at once. So the state is at every time the
-- fold of the journal, also of the journal as it is read from the disk.
import Klick.Executions

open Js

namespace Klick

/-! ## Errors change nothing -/

/-- **A line that is answered with an error** leaves the journal and the state
as they were; and every line is answered, with the head of the journal after it. -/
theorem refused_line_changes_nothing {P : Platform} (hA : AddressShapes P.addresses)
    {as : List Action} {g : Signer} {es : List Timed} (h : Run P as g es) (scope : By) (w : World)
    (text : Text) :
    let after := handleLine P scope g w text
    (after.response.seq = after.signer.journal.seq ∧
      after.response.head = after.signer.journal.head) ∧
    (after.response.ok = false →
      after.signer.journal = g.journal ∧ after.signer.state = g.state ∧ after.recorded = []) := by
  constructor
  · rcases handleLine_cases P scope g w text with ⟨id, f, hl⟩ | ⟨id, cmd, args, hl⟩
    · simp only [hl]
      exact ⟨rfl, rfl⟩
    · simp only [hl]
      exact ⟨rfl, rfl⟩
  · intro hok
    obtain ⟨heff, -⟩ := handleLine_effect hA (h.reached hA).inv scope w text
    cases heff with
    | nothing hrec hj hs => exact ⟨hj, hs, hrec⟩
    | event _ _ _ _ _ _ hyes =>
      rw [hyes] at hok
      cases hok

/-- A line that is no JSON, on a signer that was just started. -/
theorem refused_line_of_start :
    let after := handleLine samplePlatform .app sampleStart (sampleWorld 0 0 0) (js "klick")
    (after.response.seq = after.signer.journal.seq ∧
      after.response.head = after.signer.journal.head) ∧ after.response.ok = false ∧
    after.signer.journal = sampleStart.journal ∧ after.signer.state = sampleStart.state ∧
    after.recorded = [] := by
  have hline := refused_line_changes_nothing sampleLib_shapes (.start open_sample) .app
    (sampleWorld 0 0 0) (js "klick")
  have hok : (handleLine samplePlatform .app sampleStart (sampleWorld 0 0 0)
      (js "klick")).response.ok = false := by decide
  exact ⟨hline.1, hok, hline.2 hok⟩

/-! ## The state is the fold of the journal -/

/-- An event as it comes back from its line: `JSON.parse(canonicalJson(event))`. -/
def SignerEvent.reread (e : SignerEvent) : Option SignerEvent :=
  match canonicalJson e.value with
  | .error _ => none
  | .ok body =>
    match parseJson body with
    | .error _ => none
    | .ok v => SignerEvent.ofValue? v

theorem reread_of_written {e : SignerEvent} {body : Text} (h : canonicalJson e.value = .ok body) :
    e.reread = some e := by
  have hparse := (written_of_canonicalJson h (Draft.event_distinct _ _)).parseJson
  have hread : SignerEvent.ofValue? (canon e.value) = some e := ofValue?_event e.body e.time e.seq
  simp only [SignerEvent.reread, h, hparse, hread]

/-- Every event of a chain was written. -/
theorem Chain.written {H : Sha256} {head : Text} {n : ℕ} {entries : List JournalEntry}
    {ls : List Text} (h : Chain H head n entries ls) :
    ∀ e ∈ entries, ∃ body, canonicalJson e.event = .ok body := by
  induction h with
  | nil => nofun
  | cons hbody _ _ _ ih =>
    intro e he
    rcases List.mem_cons.mp he with rfl | he
    · exact ⟨_, hbody⟩
    · exact ih e he

/-- What the journal of a signer holds comes back as it was recorded. -/
theorem Journaled.reread {P : Platform} {j : Journal} {es : List SignerEvent}
    (h : Journaled P j es) : es.mapM SignerEvent.reread = some es := by
  obtain ⟨entries, ls, hj, hevents⟩ := h
  have hwritten := hj.chain.written
  have hall : ∀ e ∈ es, e.reread = some e := by
    intro e he
    have hmem : e.value ∈ entries.map (·.event) := by
      rw [hevents]
      exact List.mem_map_of_mem he
    obtain ⟨entry, hentry, hvalue⟩ := List.mem_map.mp hmem
    obtain ⟨body, hbody⟩ := hwritten entry hentry
    rw [hvalue] at hbody
    exact reread_of_written hbody
  clear hevents hwritten
  induction es with
  | nil => rfl
  | cons e es ih =>
    have ih := ih fun x hx => hall x (List.mem_cons_of_mem _ hx)
    rw [List.mapM_cons, hall e List.mem_cons_self, ih]
    rfl

/-- The text of every intent that was recorded is read. -/
theorem History.intents_parse {P : Platform} (hA : AddressShapes P.addresses) {s : SignerState}
    {es : List Timed} (h : History P s es) :
    ∀ e ∈ es, ∀ id text mandateId, e.event.body = .intent id text mandateId →
      ∃ i, parseIntent P.addresses text = .ok i := by
  intro e he id text mandateId hbody
  obtain ⟨pre, post, rfl⟩ := List.mem_iff_append.mp he
  obtain ⟨s0, s1, -, hadm, -, -⟩ := h.before rfl
  rw [hbody] at hadm
  cases hadm with
  | @intent _ _ _ i hf =>
    obtain ⟨hv, ht⟩ := encodeIntent_eq_ok.mp hf.encoded
    exact ⟨i, (parseIntent_eq_ok hA).mpr ⟨hv, hf.fits, ht⟩⟩

/-- **After every run** the events come back from their lines, and their fold is
the state of the signer. What a further line records is folded without an error,
and a line that records nothing leaves the state; the text of every intent reads. -/
theorem state_is_the_fold_of_the_journal {P : Platform} (hA : AddressShapes P.addresses)
    {as : List Action} {g : Signer} {es : List Timed} (h : Run P as g es) :
    (∃ reread, (events es).mapM SignerEvent.reread = some reread ∧
      replay P.addresses reread = .ok g.state) ∧
    (∀ scope w text, ∀ e ∈ (handleLine P scope g w text).recorded,
      apply P.addresses g.state e = .ok (handleLine P scope g w text).signer.state) ∧
    (∀ scope w text, (handleLine P scope g w text).recorded = [] →
      (handleLine P scope g w text).signer.state = g.state) ∧
    ∀ e ∈ es, ∀ id text mandateId, e.event.body = .intent id text mandateId →
      ∃ i, parseIntent P.addresses text = .ok i := by
  have hreached := h.reached hA
  refine ⟨⟨events es, hreached.journaled.reread, hreached.history.replay⟩, ?_, ?_,
    hreached.history.intents_parse hA⟩
  · intro scope w text e he
    obtain ⟨heff, -⟩ := handleLine_effect hA hreached.inv scope w text
    cases heff with
    | nothing hrec _ _ =>
      rw [hrec] at he
      cases he
    | event _ _ _ happly hrec _ _ =>
      rw [hrec, List.mem_singleton] at he
      rw [he]
      exact happly
  · intro scope w text hrec
    obtain ⟨heff, -⟩ := handleLine_effect hA hreached.inv scope w text
    cases heff with
    | nothing _ _ hs => exact hs
    | event _ _ _ _ hsome _ _ =>
      rw [hrec] at hsome
      cases hsome

/-- Sixteen lines with two first signatures. -/
theorem sample_state_is_the_fold :
    (∃ reread, (events sample.2).mapM SignerEvent.reread = some reread ∧
      replay sampleLib reread = .ok sample.1.state) ∧
    (∀ scope w text, ∀ e ∈ (handleLine samplePlatform scope sample.1 w text).recorded,
      apply sampleLib sample.1.state e =
        .ok (handleLine samplePlatform scope sample.1 w text).signer.state) ∧
    (∀ scope w text, (handleLine samplePlatform scope sample.1 w text).recorded = [] →
      (handleLine samplePlatform scope sample.1 w text).signer.state = sample.1.state) ∧
    ∀ e ∈ sample.2, ∀ id text mandateId, e.event.body = .intent id text mandateId →
      ∃ i, parseIntent sampleLib text = .ok i :=
  state_is_the_fold_of_the_journal sampleLib_shapes sample_run

end Klick
