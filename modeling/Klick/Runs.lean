-- Runs of the signer: lines on its two sockets and new starts, in any order. A
-- crash in the middle of a command is a write that does not go through, and a
-- start after it. The journal of a run is a history: every event was admitted in
-- the state before it, and the state is the fold of them all.
import Klick.Effects

open Js

namespace Klick

/-! ## Runs -/

inductive Action
  /-- A line on a socket. -/
  | line (scope : By) (w : World) (text : Text)
  /-- A start on what lies on the disk. -/
  | restart (cfg : Config)

/-- An event that was recorded, with the reading of the clock that its command checked. -/
structure Timed where
  now : ℤ
  event : SignerEvent

/-- Runs from an empty directory: the actions, the signer after them, and what was recorded. -/
inductive Run (P : Platform) : List Action → Signer → List Timed → Prop
  | start {cfg : Config} {g : Signer} : Signer.open P cfg none .empty = .ok g → Run P [] g []
  | line {as : List Action} {g : Signer} {es : List Timed} (scope : By) (w : World) (text : Text) :
      Run P as g es →
      Run P (as ++ [.line scope w text]) (handleLine P scope g w text).signer
        (es ++ (handleLine P scope g w text).recorded.map fun e => ⟨w.clock.now, e⟩)
  | restart {as : List Action} {g g' : Signer} {es : List Timed} {cfg : Config} :
      Run P as g es → Signer.open P cfg (some g.journal.file) g.seedFile = .ok g' →
      Run P (as ++ [.restart cfg]) g' es

/-- The events of a history. -/
def events (es : List Timed) : List SignerEvent := es.map (·.event)

/-- The clocks of the actions, in their order. -/
def clocks (as : List Action) : List Clock :=
  as.filterMap fun a => match a with
    | .line _ w _ => some w.clock
    | .restart _ => none

/-- The readings of a call do not fall. -/
structure Clock.Rises (c : Clock) : Prop where
  start : c.now ≤ c.stamp 0
  stamps : Monotone c.stamp
  last : ∀ k, c.stamp k ≤ c.after

/-- A clock that never goes back, within a call and from one call to the next. -/
structure NonDecreasing (as : List Action) : Prop where
  rises : ∀ c ∈ clocks as, c.Rises
  ordered : (clocks as).Pairwise fun c d => c.after ≤ d.now

/-! ## Histories -/

/-- The states that events lead to, each admitted in the state before it. -/
inductive History (P : Platform) : SignerState → List Timed → Prop
  | nil : History P emptyState []
  | record {s s' : SignerState} {es : List Timed} {now : ℤ} {e : SignerEvent} :
      History P s es → Admitted P s now e.body → apply P.addresses s e = .ok s' →
      e.seq = es.length + 1 → History P s' (es ++ [⟨now, e⟩])

/-- Every event is stamped after the reading it rests on, and before the next reading. -/
structure Timely (es : List Timed) : Prop where
  stamped : ∀ e ∈ es, e.now ≤ e.event.time
  ordered : es.Pairwise fun d e => d.event.time ≤ e.now

theorem applyAll_append {A : AddressLib} {s s' : SignerState} {ds es : List SignerEvent}
    (h : applyAll A s ds = .ok s') : applyAll A s (ds ++ es) = applyAll A s' es := by
  induction ds generalizing s with
  | nil =>
    cases h
    rfl
  | cons d ds ih =>
    rw [applyAll] at h
    obtain ⟨s1, h1, h2⟩ := bind_eq_ok.mp h
    rw [List.cons_append, applyAll, h1]
    exact ih h2

theorem events_concat (es : List Timed) (e : Timed) : events (es ++ [e]) = events es ++ [e.event] :=
  List.map_append

/-- A state is the fold of its history. -/
theorem History.replay {P : Platform} {s : SignerState} {es : List Timed} (h : History P s es) :
    replay P.addresses (events es) = .ok s := by
  induction h with
  | nil => rfl
  | record _ _ happly _ ih =>
    rw [events_concat, Klick.replay, applyAll_append ih, applyAll, happly]
    rfl

theorem History.numbered {P : Platform} {s : SignerState} {es : List Timed} (h : History P s es) :
    (events es).map (·.seq) = List.range' 1 es.length := by
  induction h with
  | nil => rfl
  | record _ _ _ hseq ih =>
    rw [events_concat, List.map_append, ih, List.length_append, List.length_singleton,
      List.range'_concat, List.map_singleton, hseq]
    congr 2
    omega

theorem History.ids {P : Platform} {s : SignerState} {es : List Timed} (h : History P s es) :
    IdsMatch s := by
  induction h with
  | nil => exact idsMatch_empty
  | record _ _ happly _ ih => exact ih.apply happly

/-- An invariant that every admitted event keeps holds after every history. -/
theorem History.induct {P : Platform} {I : SignerState → List Timed → Prop}
    (hnil : I emptyState [])
    (hstep : ∀ s s' es now e, History P s es → I s es → Admitted P s now e.body →
      apply P.addresses s e = .ok s' → I s' (es ++ [⟨now, e⟩]))
    {s : SignerState} {es : List Timed} (h : History P s es) : I s es := by
  induction h with
  | nil => exact hnil
  | record hist hadm happly _ ih => exact hstep _ _ _ _ _ hist ih hadm happly

/-- What a history was before one of its events. -/
theorem History.before {P : Platform} {s : SignerState} {es : List Timed} (h : History P s es)
    {pre post : List Timed} {e : Timed} (hes : es = pre ++ e :: post) :
    ∃ s0 s1, History P s0 pre ∧ Admitted P s0 e.now e.event.body ∧
      apply P.addresses s0 e.event = .ok s1 ∧ History P s1 (pre ++ [e]) := by
  induction h generalizing post with
  | nil => simp at hes
  | @record s s' es now e' hist hadm happly hseq ih =>
    rcases List.eq_nil_or_concat post with rfl | ⟨post', last, rfl⟩
    · obtain ⟨rfl, he⟩ := List.append_inj' hes rfl
      obtain rfl := (List.cons.inj he).1
      exact ⟨s, s', hist, hadm, happly, .record hist hadm happly hseq⟩
    · rw [List.concat_eq_append, ← List.cons_append, ← List.append_assoc] at hes
      exact ih (List.append_inj' hes rfl).1

/-! ## The journal of a run -/

/-- The object that is written for an event. -/
def SignerEvent.value (e : SignerEvent) : Value := (e.body.draft e.time).event e.seq

/-- The journal holds the events. -/
def Journaled (P : Platform) (j : Journal) (es : List SignerEvent) : Prop :=
  ∃ entries ls, j.Holds P.hash entries ls ∧ entries.map (·.event) = es.map SignerEvent.value

theorem Journaled.length {P : Platform} {j : Journal} {es : List SignerEvent}
    (h : Journaled P j es) : j.seq = es.length := by
  obtain ⟨entries, ls, hj, hevents⟩ := h
  rw [hj.seq]
  simpa using congrArg List.length hevents

theorem Journaled.append {P : Platform} {j j' : Journal} {es : List SignerEvent}
    (h : Journaled P j es) {body : EventBody} {t : ℤ} {entry : JournalEntry}
    (ha : j.append P.hash (body.draft t) = .ok (j', entry)) :
    entry.seq = es.length + 1 ∧ Journaled P j' (es ++ [⟨entry.seq, t, body⟩]) := by
  have hlen := h.length
  obtain ⟨entries, ls, hj, hevents⟩ := h
  obtain ⟨l, hj', hevent⟩ := hj.append ha
  obtain ⟨text, -, -, hentry, -⟩ := append_cases ha
  have hseq : entry.seq = es.length + 1 := by rw [hentry, hlen]
  refine ⟨hseq, entries ++ [entry], ls ++ [l], hj', ?_⟩
  rw [List.map_append, hevents, List.map_append, List.map_singleton, List.map_singleton, hevent,
    SignerEvent.value, hseq, ← hj.seq, hlen]

/-- The events come back from the entries that are read. -/
theorem eventsOf_read {entries : List JournalEntry} {es : List SignerEvent}
    (h : entries.map (·.event) = es.map SignerEvent.value) :
    eventsOf (entries.map JournalEntry.read) = some es := by
  unfold eventsOf
  induction es generalizing entries with
  | nil =>
    rw [List.map_nil, List.map_eq_nil_iff] at h
    rw [h]
    rfl
  | cons e es ih =>
    cases entries with
    | nil => cases h
    | cons entry entries =>
      simp only [List.map_cons, List.cons.injEq] at h
      have hread : SignerEvent.ofValue? entry.read.event = some e := by
        rw [JournalEntry.read, h.1]
        exact ofValue?_event e.body e.time e.seq
      rw [List.map_cons, List.mapM_cons, hread, ih h.2]
      rfl

/-- A journal that opens is as it was left, and its events are those that were recorded. -/
theorem Journaled.open {P : Platform} {j j' : Journal} {es : List SignerEvent}
    (h : Journaled P j es) {entries : List JournalEntry}
    (ho : Journal.open P.hash (some j.file) = .ok (j', entries)) :
    j' = j ∧ eventsOf entries = some es := by
  obtain ⟨entries', ls, hj, hevents⟩ := h
  unfold Journal.open at ho
  obtain ⟨p, hp, ho⟩ := bind_eq_ok.mp ho
  have hparse := hj.parse (hj.fit_of_parse hp)
  rw [Option.getD_some] at hp ho
  rw [hparse] at hp
  obtain rfl := Except.ok.inj hp
  obtain ⟨rfl, rfl⟩ := Prod.mk.inj (Except.ok.inj ho)
  exact ⟨rfl, eventsOf_read hevents⟩

/-! ## What holds after every run -/

/-- The signer keeps its invariant, and journal and state are those of the history. -/
structure Reached (P : Platform) (g : Signer) (es : List Timed) : Prop where
  inv : SignerInv g
  history : History P g.state es
  journaled : Journaled P g.journal (events es)

theorem open_eq_ok {P : Platform} {cfg : Config} {file : Option Bytes} {seedFile : SeedFile}
    {g : Signer} (h : Signer.open P cfg file seedFile = .ok g) :
    ∃ entries es, Journal.open P.hash file = .ok (g.journal, entries) ∧ eventsOf entries = some es ∧
      replay P.addresses es = .ok g.state ∧ KeyRing.load P.keys seedFile cfg.kek = .ok g.keys ∧
      seedsFit P g.state g.keys = true ∧ g.seedFile = seedFile ∧ g.prepared = none := by
  unfold Signer.open at h
  simp only [bind_eq_ok, mapError_eq_ok, orRefuse_eq_ok, internal_eq_ok, check_eq_ok, exists_const,
    pure_eq_ok] at h
  obtain ⟨⟨journal, entries⟩, hopen, es, hes, state, hstate, keys, hkeys, hfit, _, -, rfl⟩ := h
  exact ⟨entries, es, hopen, hes, hstate, hkeys, hfit, rfl, rfl⟩

/-- A line is refused as it stands, or it runs a command. -/
theorem handleLine_cases (P : Platform) (scope : By) (g : Signer) (w : World) (text : Text) :
    (∃ id f, handleLine P scope g w text = respond id (.refused g f)) ∨
    ∃ id cmd args, handleLine P scope g w text = respond id (run P g cmd { w with args := args }) := by
  unfold handleLine
  split
  · exact .inl ⟨_, _, rfl⟩
  · unfold handleRequest
    split
    · split
      · exact .inr ⟨_, _, _, rfl⟩
      · exact .inl ⟨_, _, rfl⟩
    · exact .inl ⟨_, _, rfl⟩

/-- The id that a line draws for a new intent. -/
def World.intentId (w : World) : Text := toHex (w.random.bytes 0 16)

/-- One line: nothing is recorded, or one event that was admitted, and then the response says so. -/
inductive LineEffect (P : Platform) (g : Signer) (w : World) (h : Handled) : Prop
  | nothing : h.recorded = [] → h.signer.journal = g.journal → h.signer.state = g.state →
      LineEffect P g w h
  | event {body j entry} : Admitted P g.state w.clock.now body →
      (∀ id text mandateId, body = .intent id text mandateId → id = w.intentId) →
      g.journal.append P.hash (body.draft (w.clock.stamp 0)) = .ok (j, entry) →
      apply P.addresses g.state ⟨entry.seq, w.clock.stamp 0, body⟩ = .ok h.signer.state →
      h.recorded = [⟨entry.seq, w.clock.stamp 0, body⟩] → h.signer.journal = j →
      h.response.ok = true → LineEffect P g w h

theorem handleLine_effect {P : Platform} (hA : AddressShapes P.addresses) {g : Signer}
    (h : SignerInv g) (scope : By) (w : World) (text : Text) :
    LineEffect P g w (handleLine P scope g w text) ∧
      SignerInv (handleLine P scope g w text).signer := by
  rcases handleLine_cases P scope g w text with ⟨id, f, hl⟩ | ⟨id, cmd, args, hl⟩
  · rw [hl]
    exact ⟨.nothing rfl rfl rfl, h⟩
  · rw [hl]
    obtain ⟨he, hinv⟩ := run_effect { w with args := args } hA h cmd
    refine ⟨?_, hinv⟩
    cases he with
    | nothing h1 h2 h3 => exact .nothing h1 h2 h3
    | event h1 hd h2 h3 h4 h5 h6 h7 =>
      subst h6
      refine .event h1 hd h2 h3 h4 h5 ?_
      obtain ⟨v, hv⟩ := h7
      simp only [respond, Response.ok, hv]
      rfl

theorem Reached.line {P : Platform} (hA : AddressShapes P.addresses) {g : Signer}
    {es : List Timed} (h : Reached P g es) (scope : By) (w : World) (text : Text) :
    Reached P (handleLine P scope g w text).signer
      (es ++ (handleLine P scope g w text).recorded.map fun e => ⟨w.clock.now, e⟩) := by
  obtain ⟨he, hinv⟩ := handleLine_effect hA h.inv scope w text
  cases he with
  | nothing hrec hj hs =>
    rw [hrec, List.map_nil, List.append_nil]
    refine ⟨hinv, ?_, ?_⟩
    · rw [hs]
      exact h.history
    · rw [hj]
      exact h.journaled
  | event hadm _ happ happly hrec hj _ =>
    obtain ⟨hseq, hjournaled⟩ := h.journaled.append happ
    rw [hrec, List.map_singleton]
    refine ⟨hinv, .record h.history hadm happly ?_, ?_⟩
    · rw [hseq, events, List.length_map]
    · rw [events_concat, hj]
      exact hjournaled

theorem reached_start {P : Platform} {cfg : Config} {g : Signer}
    (h : Signer.open P cfg none .empty = .ok g) : Reached P g [] := by
  obtain ⟨entries, es, hopen, hes, hstate, hkeys, -, hseeds, hprep⟩ := open_eq_ok h
  have hopen' : Journal.open P.hash (some []) = .ok (g.journal, entries) := hopen
  have hempty : Journaled P .empty [] := ⟨[], [], holds_empty _, rfl⟩
  obtain ⟨hj, hev⟩ := hempty.open hopen'
  rw [hev] at hes
  cases hes
  have hs : g.state = emptyState := (Except.ok.inj hstate).symm
  refine ⟨⟨?_, ?_, ?_, ?_⟩, ?_, ?_⟩
  · rw [hs]
    exact idsMatch_empty
  · intro n hn
    rw [hseeds]
    exact (load_networks hkeys n).mp hn
  · rw [hs]
    nofun
  · rw [hprep]
    nofun
  · rw [hs]
    exact .nil
  · rw [hj]
    exact ⟨[], [], holds_empty _, rfl⟩

theorem Reached.restart {P : Platform} {g g' : Signer} {es : List Timed} (h : Reached P g es)
    {cfg : Config} (ho : Signer.open P cfg (some g.journal.file) g.seedFile = .ok g') :
    Reached P g' es ∧ g'.state = g.state ∧ g'.journal = g.journal := by
  obtain ⟨entries, es', hopen, hes, hstate, hkeys, hfit, hseeds, hprep⟩ := open_eq_ok ho
  obtain ⟨hj, hev⟩ := h.journaled.open hopen
  rw [hev] at hes
  obtain rfl := Option.some.inj hes
  rw [h.history.replay] at hstate
  have hs : g'.state = g.state := (Except.ok.inj hstate).symm
  refine ⟨⟨⟨?_, ?_, ?_, ?_⟩, ?_, ?_⟩, hs, hj⟩
  · rw [hs]
    exact h.inv.ids
  · intro n hn
    rw [hseeds]
    exact (load_networks hkeys n).mp hn
  · rw [hs]
    intro hi
    obtain ⟨n, hlive, hf, -⟩ := h.inv.seeded hi
    refine ⟨n, hlive, hf, ?_⟩
    obtain ⟨f, hf⟩ := Option.isSome_iff_exists.mp hf
    have hall := List.all_eq_true.mp hfit n n.mem_all
    rw [hs, hf] at hall
    have hfp : g'.keys.fingerprint P.keys n = some f := by simpa using hall
    unfold KeyRing.fingerprint at hfp
    obtain ⟨entropy, he, -⟩ := Option.map_eq_some_iff.mp hfp
    rw [he]
    rfl
  · rw [hprep]
    nofun
  · rw [hs]
    exact h.history
  · rw [hj]
    exact h.journaled

/-- **Every run** reaches a signer whose state is the fold of an admitted history. -/
theorem Run.reached {P : Platform} (hA : AddressShapes P.addresses) {as : List Action}
    {g : Signer} {es : List Timed} (h : Run P as g es) : Reached P g es := by
  induction h with
  | start ho => exact reached_start ho
  | line scope w text _ ih => exact ih.line hA scope w text
  | restart _ ho ih => exact (ih.restart ho).1

/-! ## The random bytes of a run -/

/-- The ids that lines draw. -/
def drawnIds (as : List Action) : List Text :=
  as.filterMap fun a => match a with
    | .line _ w _ => some w.intentId
    | .restart _ => none

/-- The intent that an event opens. -/
def EventBody.opens? : EventBody → Option Text
  | .intent intentId .. => some intentId
  | _ => none

/-- The ids of the intents of a history, in their order. -/
def openedIds (es : List Timed) : List Text := es.filterMap (·.event.body.opens?)

theorem drawnIds_append (as bs : List Action) :
    drawnIds (as ++ bs) = drawnIds as ++ drawnIds bs := List.filterMap_append

theorem openedIds_append (es fs : List Timed) :
    openedIds (es ++ fs) = openedIds es ++ openedIds fs := List.filterMap_append

/-- The intents of a run have the ids that its lines drew. -/
theorem Run.opened_drawn {P : Platform} (hA : AddressShapes P.addresses) {as : List Action}
    {g : Signer} {es : List Timed} (h : Run P as g es) : (openedIds es).Sublist (drawnIds as) := by
  induction h with
  | start _ => exact List.Sublist.refl _
  | @line as g es scope w text hrun ih =>
    rw [openedIds_append, drawnIds_append]
    apply ih.append
    obtain ⟨heff, -⟩ := handleLine_effect hA (hrun.reached hA).inv scope w text
    cases heff with
    | nothing hrec _ _ =>
      rw [hrec]
      exact List.nil_sublist _
    | @event body j entry _ hdrawn _ _ hrec _ _ =>
      rw [hrec, List.map_singleton]
      cases body with
      | intent intentId text mandateId =>
        obtain rfl := hdrawn _ _ _ rfl
        exact List.Sublist.refl _
      | _ => exact List.nil_sublist _
  | restart _ _ ih =>
    rw [drawnIds_append]
    exact ih.trans (List.sublist_append_left _ _)

/-- Ids that are drawn once are opened once. -/
theorem Run.opened_once {P : Platform} (hA : AddressShapes P.addresses) {as : List Action}
    {g : Signer} {es : List Timed} (h : Run P as g es) (hd : (drawnIds as).Nodup) :
    (openedIds es).Nodup := (h.opened_drawn hA).nodup hd

/-! ## The clock of a run -/

theorem clocks_append (as bs : List Action) : clocks (as ++ bs) = clocks as ++ clocks bs :=
  List.filterMap_append

theorem clocks_line (scope : By) (w : World) (text : Text) :
    clocks [.line scope w text] = [w.clock] := rfl

theorem clocks_restart (cfg : Config) : clocks [.restart cfg] = [] := rfl

theorem NonDecreasing.prefix {as bs : List Action} (h : NonDecreasing (as ++ bs)) :
    NonDecreasing as := by
  obtain ⟨hr, ho⟩ := h
  rw [clocks_append] at hr ho
  exact ⟨fun c hc => hr c (List.mem_append_left _ hc), (List.pairwise_append.mp ho).1⟩

/-- Each event has its times from one of the clocks. -/
theorem Run.stamps {P : Platform} (hA : AddressShapes P.addresses) {as : List Action} {g : Signer}
    {es : List Timed} (h : Run P as g es) :
    ∀ e ∈ es, ∃ c ∈ clocks as, e.now = c.now ∧ e.event.time = c.stamp 0 := by
  induction h with
  | start _ => exact fun e he => absurd he List.not_mem_nil
  | @line as g es scope w text hrun ih =>
    intro e he
    rw [clocks_append, clocks_line]
    rcases List.mem_append.mp he with he | he
    · obtain ⟨c, hc, hce⟩ := ih e he
      exact ⟨c, List.mem_append_left _ hc, hce⟩
    · refine ⟨w.clock, List.mem_append_right _ List.mem_cons_self, ?_⟩
      obtain ⟨heff, -⟩ := handleLine_effect hA (hrun.reached hA).inv scope w text
      cases heff with
      | nothing hrec _ _ =>
        rw [hrec] at he
        cases he
      | event _ _ _ _ hrec _ _ =>
        rw [hrec, List.map_singleton, List.mem_singleton] at he
        subst he
        exact ⟨rfl, rfl⟩
  | restart _ _ ih =>
    intro e he
    rw [clocks_append, clocks_restart, List.append_nil]
    exact ih e he

/-- A clock that does not go back stamps the events of a run in their order. -/
theorem Run.timely {P : Platform} (hA : AddressShapes P.addresses) {as : List Action} {g : Signer}
    {es : List Timed} (h : Run P as g es) (hc : NonDecreasing as) : Timely es := by
  induction h with
  | start _ => exact ⟨fun e he => absurd he List.not_mem_nil, .nil⟩
  | @line as g es scope w text hrun ih =>
    have ih := ih hc.prefix
    have hstamps := hrun.stamps hA
    obtain ⟨hrises, hordered⟩ := hc
    rw [clocks_append, clocks_line] at hrises hordered
    have hw := hrises w.clock (List.mem_append_right _ List.mem_cons_self)
    obtain ⟨heff, -⟩ := handleLine_effect hA (hrun.reached hA).inv scope w text
    cases heff with
    | nothing hrec _ _ =>
      rw [hrec, List.map_nil, List.append_nil]
      exact ih
    | event _ _ _ _ hrec _ _ =>
      rw [hrec, List.map_singleton]
      constructor
      · intro e he
        rcases List.mem_append.mp he with he | he
        · exact ih.stamped e he
        · rw [List.mem_singleton.mp he]
          exact hw.start
      · refine List.pairwise_append.mpr ⟨ih.ordered, List.pairwise_singleton _ _, ?_⟩
        intro d hd e he
        rw [List.mem_singleton.mp he]
        obtain ⟨c, hcmem, -, htime⟩ := hstamps d hd
        have hafter := (hrises c (List.mem_append_left _ hcmem)).last 0
        have hnext := (List.pairwise_append.mp hordered).2.2 c hcmem w.clock List.mem_cons_self
        rw [htime]
        exact hafter.trans hnext
  | restart _ _ ih => exact ih hc.prefix

end Klick
