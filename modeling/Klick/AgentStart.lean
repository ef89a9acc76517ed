-- The start of the network agent. The set-up of a stored tunnel throws at its
-- first command that fails, and nobody catches that: the start ends with it, and
-- with the start the process. So a broken tunnel takes down the others.
import Klick.NetzAgent

open Js

namespace Klick.SiteTunnels

/-! ## Commands that must all succeed -/

theorem allRequired_cons {c : Command} {ts : List Task} (h : AllRequired ts) :
    AllRequired (.require c :: ts) := by
  intro t ht
  rcases List.mem_cons.mp ht with rfl | ht
  · exact ⟨c, rfl⟩
  · exact h t ht

theorem allRequired_append {ts us : List Task} (ht : AllRequired ts) (hu : AllRequired us) :
    AllRequired (ts ++ us) := by
  intro t h
  rcases List.mem_append.mp h with h | h
  · exact ht t h
  · exact hu t h

theorem setUpTasks_new (spec : TunnelSpec) : AllRequired (setUpTasks spec none) := by
  have hroutes : AllRequired (spec.nets.map fun n => .require (.replaceRoute n)) := by
    intro t ht
    obtain ⟨n, _, rfl⟩ := List.mem_map.mp ht
    exact ⟨_, rfl⟩
  have hwall : AllRequired (firewallTasks spec none) := by
    simp only [firewallTasks, droppedNets, Option.map_none, Option.getD_none, List.filter_nil,
      List.map_nil, List.nil_append]
    exact allRequired_cons (allRequired_cons fun t ht => absurd ht List.not_mem_nil)
  unfold setUpTasks
  apply allRequired_append _ hwall
  unfold peerTasks
  cases spec.tech with
  | ipsec psk => exact fun t ht => absurd ht List.not_mem_nil
  | wireguard publicKey presharedKey =>
    simp only [droppedNets, Option.map_none, Option.getD_none, List.filter_nil, List.map_nil,
      List.nil_append, List.cons_append]
    exact allRequired_cons hroutes

theorem setUpTasks_ne_nil (spec : TunnelSpec) (prev : Option TunnelSpec) :
    setUpTasks spec prev ≠ [] := by
  simp [setUpTasks, firewallTasks]

theorem reloadTasks_required (specs : List TunnelSpec) : AllRequired (Agent.reloadTasks specs) := by
  unfold Agent.reloadTasks
  by_cases h : specs.any fun spec => Agent.isIpsec spec.tech
  · rw [if_pos h]
    exact allRequired_cons fun t ht => absurd ht List.not_mem_nil
  · rw [if_neg h]
    exact fun t ht => absurd ht List.not_mem_nil

/-- The next `n` answers say that all went well. -/
def AllWell (s : Session) (n : ℕ) : Prop := ∀ r ∈ s.answers.take n, r.code = 0

theorem allWell_add (s : Session) (m n : ℕ) :
    AllWell s (m + n) ↔ AllWell s m ∧ ∀ r ∈ (s.answers.drop m).take n, r.code = 0 := by
  unfold AllWell
  rw [List.take_add]
  simp only [List.mem_append, or_imp, forall_and]

theorem allWell_succ (s : Session) (c : Command) (n : ℕ) :
    AllWell s (n + 1) ↔ s.answer.code = 0 ∧ AllWell (s.run c) n := by
  unfold AllWell Session.answer Session.run
  cases s.answers with
  | nil => simp
  | cons r rs => simp

theorem perform_none_iff {ts : List Task} (h : AllRequired ts) (s : Session) :
    (s.perform ts).1 = none ↔ AllWell s ts.length := by
  induction ts generalizing s with
  | nil => simp [Session.perform, AllWell]
  | cons t ts ih =>
    obtain ⟨c, rfl⟩ := h t List.mem_cons_self
    rw [List.length_cons, allWell_succ s c, Session.perform]
    by_cases hc : s.answer.code = 0
    · rw [if_pos hc, ih fun t ht => h t (List.mem_cons_of_mem _ ht)]
      simp [hc]
    · simp [hc]

/-- When all goes well, each task is run once, in order. -/
theorem perform_of_allWell {ts : List Task} (h : AllRequired ts) {s : Session}
    (hw : AllWell s ts.length) : ∃ part : List (Command × RunResult),
    (s.perform ts).2.issued = s.issued ++ part ∧ part.map (fun e => .require e.1) = ts ∧
      (∀ e ∈ part, e.2.code = 0) ∧ (s.perform ts).2.answers = s.answers.drop ts.length := by
  induction ts generalizing s with
  | nil => exact ⟨[], by simp [Session.perform]⟩
  | cons t ts ih =>
    obtain ⟨c, rfl⟩ := h t List.mem_cons_self
    rw [List.length_cons, allWell_succ s c] at hw
    obtain ⟨part, hissued, htasks, hcodes, hanswers⟩ :=
      ih (fun t ht => h t (List.mem_cons_of_mem _ ht)) hw.2
    rw [Session.perform, if_pos hw.1]
    refine ⟨(c, s.answer) :: part, ?_, ?_, ?_, ?_⟩
    · rw [hissued]
      simp [Session.run]
    · rw [List.map_cons, htasks]
    · intro e he
      rcases List.mem_cons.mp he with rfl | he
      · exact hw.1
      · exact hcodes e he
    · rw [hanswers]
      simp [Session.run]

/-! ## The stored tunnels -/

/-- The set-up of a tunnel was tried: `part` is what was run of it, from its first command on,
and what failed stands in the status of the tunnel. -/
structure Attempted (a : Agent) (spec : TunnelSpec) (part : List (Command × RunResult)) : Prop where
  begun : part ≠ []
  inOrder : part.map (fun e => .require e.1) <+: setUpTasks spec none
  reported : ∀ e ∈ part, e.2.code ≠ 0 → a.errors.get spec.id = some (failure e.1 e.2)

/-- The agent serves, and it has tried the set-up of every tunnel. -/
def AllAttempted (specs : List TunnelSpec) (p : Process) : Prop :=
  ∃ a s, p = .serving a s ∧ ∃ before parts after,
    List.Forall₂ (Attempted a) specs parts ∧ s.issued = before ++ parts.flatten ++ after

/-- All commands that a start runs for the stored tunnels. -/
def startTasks (specs : List TunnelSpec) : List Task :=
  specs.flatMap (setUpTasks · none) ++ Agent.reloadTasks specs

theorem replay_none_iff (a : Agent) (s : Session) (specs : List TunnelSpec) :
    (a.replay s specs).1 = none ↔ AllWell s (specs.flatMap (setUpTasks · none)).length := by
  induction specs generalizing a s with
  | nil => simp [Agent.replay, AllWell]
  | cons spec specs ih =>
    rw [List.flatMap_cons, List.length_append, allWell_add]
    have hiff := perform_none_iff (setUpTasks_new spec) s
    unfold Agent.replay Agent.applyRuntime
    cases hp : s.perform (setUpTasks spec none) with
    | mk e s' =>
      rw [hp] at hiff
      cases e with
      | some e => simp only [reduceCtorEq, false_iff] at hiff ⊢; exact fun h => hiff h.1
      | none =>
        have hwell := hiff.mp rfl
        obtain ⟨_, _, _, _, hanswers⟩ := perform_of_allWell (setUpTasks_new spec) hwell
        rw [hp] at hanswers
        dsimp only at hanswers ⊢
        rw [ih, and_iff_right hwell, AllWell, hanswers]

theorem replay_of_allWell (a : Agent) {s : Session} {specs : List TunnelSpec}
    (hw : AllWell s (specs.flatMap (setUpTasks · none)).length) : ∃ parts,
    (a.replay s specs).2.1 = a ∧ List.Forall₂ (Attempted a) specs parts ∧
      (a.replay s specs).2.2.issued = s.issued ++ parts.flatten ∧
      (a.replay s specs).2.2.answers =
        s.answers.drop (specs.flatMap (setUpTasks · none)).length := by
  induction specs generalizing s with
  | nil => exact ⟨[], rfl, .nil, by simp [Agent.replay], by simp [Agent.replay]⟩
  | cons spec specs ih =>
    rw [List.flatMap_cons, List.length_append, allWell_add] at hw
    obtain ⟨part, hissued, htasks, hcodes, hanswers⟩ :=
      perform_of_allWell (setUpTasks_new spec) hw.1
    have hnone := (perform_none_iff (setUpTasks_new spec) s).mpr hw.1
    have hrest : AllWell (s.perform (setUpTasks spec none)).2
        (specs.flatMap (setUpTasks · none)).length := by
      unfold AllWell
      rw [hanswers]
      exact hw.2
    obtain ⟨parts, hagent, hparts, hmore, hleft⟩ := ih hrest
    have hstep : a.replay s (spec :: specs) =
        a.replay (s.perform (setUpTasks spec none)).2 specs := by
      rw [Agent.replay, Agent.applyRuntime]
      cases hp : s.perform (setUpTasks spec none) with
      | mk e s' =>
        rw [hp] at hnone
        cases hnone
        rfl
    rw [hstep]
    refine ⟨part :: parts, hagent, .cons ⟨?_, ?_, ?_⟩ hparts, ?_, ?_⟩
    · rintro rfl
      exact setUpTasks_ne_nil spec none htasks.symm
    · rw [htasks]
    · exact fun e he hne => absurd (hcodes e he) hne
    · rw [hmore, hissued, List.flatten_cons, List.append_assoc]
    · rw [hleft, hanswers, List.drop_drop, List.flatMap_cons, List.length_append]

/-! ## The start -/

/-- The first part of a start leaves the tunnels as they are. -/
theorem prepare_specs {a a' : Agent} {s s' : Session} (h : a.prepare s = (.ok a', s')) :
    a'.specs = a.specs := by
  have hnets : ∀ {b : Agent} {t : Session}, a.readHostNets s = (.ok b, t) → b.specs = a.specs := by
    intro b t hb
    unfold Agent.readHostNets at hb
    dsimp only at hb
    split at hb
    · cases hb
      rfl
    · obtain ⟨hb, _⟩ := Prod.mk.inj hb
      cases hp : Agent.parseHostNets s.answer.stdout with
      | error e => rw [hp] at hb; cases hb
      | ok nets => rw [hp] at hb; cases hb; rfl
  unfold Agent.prepare at h
  split at h
  · cases h
  · rename_i b t hb
    split at h
    · cases h
      change b.specs = a.specs
      exact hnets hb
    · cases h
      change b.specs = a.specs
      exact hnets hb

theorem start_of_prepare {a b : Agent} {s t : Session} (h : a.prepare s = (.ok b, t)) :
    (a.start s).1 = .ok () ↔ AllWell t (startTasks b.specs.values).length := by
  have hiff := replay_none_iff b t b.specs.values
  rw [startTasks, List.length_append, allWell_add]
  unfold Agent.start
  rw [h]
  dsimp only
  cases hr : b.replay t b.specs.values with
  | mk e r =>
    obtain ⟨c, u⟩ := r
    rw [hr] at hiff
    cases e with
    | some e => simp only [reduceCtorEq, false_iff] at hiff ⊢; exact fun h => hiff h.1
    | none =>
      have hwell := hiff.mp rfl
      obtain ⟨parts, hc, _, _, hanswers⟩ := replay_of_allWell b hwell
      rw [hr] at hc hanswers
      dsimp only at hc hanswers
      subst hc
      have hlast := perform_none_iff (reloadTasks_required c.specs.values) u
      unfold AllWell at hlast
      rw [hanswers] at hlast
      dsimp only
      cases hp : u.perform (Agent.reloadTasks c.specs.values) with
      | mk e v =>
        rw [hp] at hlast
        cases e with
        | some e => simp only [reduceCtorEq, false_iff] at hlast ⊢; exact fun h => hlast h.2
        | none => simp only [true_iff] at hlast ⊢; exact ⟨hwell, hlast⟩

/-- A start that comes to its end has tried every tunnel. -/
theorem attempted_of_start {a b : Agent} {s t : Session} (h : a.prepare s = (.ok b, t))
    (hwell : AllWell t (startTasks b.specs.values).length) : ∃ parts after,
    List.Forall₂ (Attempted (a.start s).2.1) b.specs.values parts ∧
      (a.start s).2.2.issued = t.issued ++ parts.flatten ++ after := by
  rw [startTasks, List.length_append, allWell_add] at hwell
  obtain ⟨parts, hc, hparts, hissued, hanswers⟩ := replay_of_allWell b hwell.1
  have hnone := (replay_none_iff b t b.specs.values).mpr hwell.1
  unfold Agent.start
  rw [h]
  dsimp only
  cases hr : b.replay t b.specs.values with
  | mk e r =>
    obtain ⟨c, u⟩ := r
    rw [hr] at hc hissued hanswers hnone
    dsimp only at hc hissued hanswers hnone
    subst hc hnone
    have hlast : AllWell u (Agent.reloadTasks c.specs.values).length := by
      unfold AllWell
      rw [hanswers]
      exact hwell.2
    obtain ⟨part, hmore, _⟩ := perform_of_allWell (reloadTasks_required c.specs.values) hlast
    have hend := (perform_none_iff (reloadTasks_required c.specs.values) u).mpr hlast
    dsimp only
    cases hp : u.perform (Agent.reloadTasks c.specs.values) with
    | mk e v =>
      rw [hp] at hend hmore
      dsimp only at hend hmore
      subst hend
      exact ⟨parts, part, hparts, by rw [hmore, hissued]⟩

/-- The agent serves after its start, with the set-up of every stored tunnel tried and every
failure in the status, exactly when nothing fails: the networks of the server can be read, and
every command for the stored tunnels succeeds. -/
theorem start_serves_iff {publicIp ip : Text} (hip : checkPeerIp publicIp = .ok (some ip))
    (files : Agent.Files) (keyFile : Option Text) (s : Session) :
    AllAttempted (Agent.loadSpecs files).values (main publicIp files keyFile s) ↔
      ∃ a t, (Agent.create ip files keyFile).prepare s = (.ok a, t) ∧
        AllWell t (startTasks (Agent.loadSpecs files).values).length := by
  unfold main
  rw [hip]
  dsimp only
  constructor
  · rintro ⟨a, u, hserving, _⟩
    cases hp : (Agent.create ip files keyFile).prepare s with
    | mk r t =>
      cases r with
      | error e =>
        rw [Agent.start, hp] at hserving
        cases hserving
      | ok b =>
        have hspecs : b.specs = Agent.loadSpecs files := prepare_specs hp
        refine ⟨b, t, rfl, ?_⟩
        rw [← hspecs]
        apply (start_of_prepare hp).mp
        cases hr : (Agent.create ip files keyFile).start s with
        | mk r q =>
          rw [hr] at hserving
          cases r with
          | error e => cases hserving
          | ok v => rfl
  · rintro ⟨b, t, hp, hwell⟩
    have hspecs : b.specs = Agent.loadSpecs files := prepare_specs hp
    rw [← hspecs] at hwell ⊢
    have hok := (start_of_prepare hp).mpr hwell
    obtain ⟨parts, after, hparts, hissued⟩ := attempted_of_start hp hwell
    cases hr : (Agent.create ip files keyFile).start s with
    | mk r q =>
      rw [hr] at hok hparts hissued
      dsimp only at hok
      subst hok
      exact ⟨q.1, q.2, rfl, t.issued, parts, after, hparts, hissued⟩

/-! ## A broken tunnel -/

def Process.exitCode : Process → Option ℕ
  | .serving .. => none
  | .exited code => some code

/-- The JSON text of a stored tunnel. -/
def wireguardFile (id peerIp net : String) : Text :=
  js "\x7b\"id\":\"" ++ js id ++ js "\",\"tech\":\"wireguard\",\"peerIp\":\"" ++ js peerIp ++
    js "\",\"nets\":[\"" ++ js net ++ js "\"],\"publicKey\":\"" ++
    List.replicate 43 (ch 'A') ++ js "=\",\"presharedKey\":\"" ++ List.replicate 43 (ch 'A') ++
    js "=\"\x7d\n"

/-- Two stored tunnels. -/
def twoTunnels : Agent.Files :=
  [(js "00000000-0000-4000-8000-000000000001.json",
      some (wireguardFile "00000000-0000-4000-8000-000000000001" "9.9.9.9" "192.168.1.0/24")),
    (js "00000000-0000-4000-8000-000000000002.json",
      some (wireguardFile "00000000-0000-4000-8000-000000000002" "8.8.4.4" "192.168.2.0/24"))]

/-- The base fails at once, and then the third command, the peer of the first tunnel. -/
def peerFails : Session :=
  ⟨Runtime.empty, [⟨0, js "[]", []⟩, ⟨0, [], []⟩, ⟨1, [], js "no device"⟩, ⟨1, [], js "no peer"⟩], []⟩

/-- The first of two tunnels cannot be set up: the process ends. -/
theorem broken_tunnel_stops_all :
    (main (js "8.8.8.8") twoTunnels none peerFails).exitCode = some 1 ∧
    ((Agent.loadSpecs twoTunnels).values.map (·.peerIp)) = [js "9.9.9.9", js "8.8.4.4"] ∧
    ¬ AllAttempted (Agent.loadSpecs twoTunnels).values
      (main (js "8.8.8.8") twoTunnels none peerFails) := by
  have hexit : (main (js "8.8.8.8") twoTunnels none peerFails).exitCode = some 1 := by
    simp only [twoTunnels, wireguardFile, peerFails]
    repeat rw [js_ofList]
    decide +kernel
  have hspecs : (Agent.loadSpecs twoTunnels).values.map (·.peerIp) =
      [js "9.9.9.9", js "8.8.4.4"] := by
    simp only [twoTunnels, wireguardFile]
    repeat rw [js_ofList]
    decide +kernel
  refine ⟨hexit, hspecs, ?_⟩
  rintro ⟨a, s, hserving, _⟩
  rw [hserving] at hexit
  cases hexit

/-- Without a failure the agent serves both tunnels. -/
theorem start_serves_two : AllAttempted (Agent.loadSpecs twoTunnels).values
    (main (js "8.8.8.8") twoTunnels none ⟨Runtime.empty, [], []⟩) := by
  have hip : checkPeerIp (js "8.8.8.8") = .ok (some (js "8.8.8.8")) := by decide
  apply (start_serves_iff hip twoTunnels none ⟨Runtime.empty, [], []⟩).mpr
  have hok : (((Agent.create (js "8.8.8.8") twoTunnels none).prepare
      ⟨Runtime.empty, [], []⟩).1.toOption.isSome) = true := by decide
  have hleft : ((Agent.create (js "8.8.8.8") twoTunnels none).prepare
      ⟨Runtime.empty, [], []⟩).2.answers = [] := by decide
  cases hp : (Agent.create (js "8.8.8.8") twoTunnels none).prepare ⟨Runtime.empty, [], []⟩ with
  | mk r t =>
    rw [hp] at hok hleft
    cases r with
    | error e => cases hok
    | ok a =>
      refine ⟨a, t, rfl, ?_⟩
      dsimp only at hleft
      unfold AllWell
      rw [hleft]
      exact fun r hr => absurd hr (by rw [List.take_nil]; exact List.not_mem_nil)

end Klick.SiteTunnels
