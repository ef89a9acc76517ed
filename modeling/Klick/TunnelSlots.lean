-- What a tunnel has in the managed state, and what the tasks of an operation
-- do there: they write at the places of the tunnel, and at no others.
import Klick.NetzAgent

open Js

namespace Klick.SiteTunnels

open Agent (isIpsec sameTech switchTasks)

/-! ## The entries of a tunnel -/

/-- The managed state of a server with one tunnel. -/
def entriesOf (serverIp : Text) (spec : TunnelSpec) : Runtime
  | .peer key =>
    match spec.tech with
    | .wireguard publicKey presharedKey =>
      if key = publicKey then some (.peer presharedKey spec.nets) else none
    | .ipsec _ => none
  | .route net => if isIpsec spec.tech = false ∧ net ∈ spec.nets then some .present else none
  | .element .sitePeers v => if v = spec.peerIp then some .present else none
  | .element .siteNets v => if v ∈ spec.nets then some .present else none
  | .conf id =>
    match spec.tech with
    | .wireguard _ _ => none
    | .ipsec psk =>
      if id = spec.id then
        some (.file (renderSwanctl spec.id spec.peerIp psk spec.nets serverIp))
      else none

/-- A place of the tunnel. -/
def Owns (spec : TunnelSpec) (slot : Slot) : Prop := (entriesOf [] spec slot).isSome

theorem owns_iff {serverIp : Text} {spec : TunnelSpec} {slot : Slot} :
    Owns spec slot ↔ (entriesOf serverIp spec slot).isSome := by
  unfold Owns entriesOf
  cases slot with
  | conf id =>
    cases spec.tech with
    | wireguard k p => rfl
    | ipsec psk => by_cases h : id = spec.id <;> simp [h]
  | element set value => cases set <;> rfl
  | _ => rfl

theorem owns_of_entry {serverIp : Text} {spec : TunnelSpec} {slot : Slot} {e : Entry}
    (h : entriesOf serverIp spec slot = some e) : Owns spec slot := by
  rw [owns_iff, h]
  rfl

@[simp] theorem owns_peer {spec : TunnelSpec} {key : Text} :
    Owns spec (.peer key) ↔ ∃ presharedKey, spec.tech = .wireguard key presharedKey := by
  unfold Owns entriesOf
  cases spec.tech with
  | ipsec psk => simp
  | wireguard k p =>
    by_cases h : key = k
    · simp [h]
    · simp [h, Ne.symm h]

@[simp] theorem owns_route {spec : TunnelSpec} {net : Text} :
    Owns spec (.route net) ↔ isIpsec spec.tech = false ∧ net ∈ spec.nets := by
  unfold Owns entriesOf
  by_cases h : isIpsec spec.tech = false ∧ net ∈ spec.nets <;> simp [h]

@[simp] theorem owns_sitePeer {spec : TunnelSpec} {v : Text} :
    Owns spec (.element .sitePeers v) ↔ v = spec.peerIp := by
  unfold Owns entriesOf
  by_cases h : v = spec.peerIp <;> simp [h]

@[simp] theorem owns_siteNet {spec : TunnelSpec} {v : Text} :
    Owns spec (.element .siteNets v) ↔ v ∈ spec.nets := by
  unfold Owns entriesOf
  by_cases h : v ∈ spec.nets <;> simp [h]

@[simp] theorem owns_conf {spec : TunnelSpec} {id : Text} :
    Owns spec (.conf id) ↔ isIpsec spec.tech = true ∧ id = spec.id := by
  unfold Owns entriesOf isIpsec
  cases spec.tech with
  | wireguard k p => simp
  | ipsec psk => by_cases h : id = spec.id <;> simp [h]

/-- A peer is allowed no networks but these. -/
def Entry.Within (nets : List Text) : Entry → Prop
  | .peer _ allowedIps => ∀ n ∈ allowedIps, n ∈ nets
  | _ => True

theorem Entry.without_eq {nets own : List Text} {e : Entry} (h : e.Within own)
    (hd : ∀ n ∈ own, n ∉ nets) : e.without nets = e := by
  cases e with
  | peer p allowedIps =>
    have hall : ∀ n ∈ allowedIps, (!nets.contains n) = true := fun n hn => by
      simpa using hd n (h n hn)
    simp only [Entry.without, List.filter_eq_self.mpr hall]
  | _ => rfl

theorem Entry.Within.without {own : List Text} {e : Entry} (h : e.Within own) (nets : List Text) :
    (e.without nets).Within own := by
  cases e with
  | peer p allowedIps => exact fun n hn => h n (List.mem_of_mem_filter hn)
  | _ => trivial

theorem Entry.Within.mono {own nets : List Text} {e : Entry} (h : e.Within own)
    (hsub : ∀ n ∈ own, n ∈ nets) : e.Within nets := by
  cases e with
  | peer p allowedIps => exact fun n hn => hsub n (h n hn)
  | _ => trivial

/-- The networks that a tunnel may have at a place. -/
def netsAt (spec : TunnelSpec) : Slot → List Text
  | .peer _ => spec.nets
  | _ => []

theorem within_entriesOf {serverIp : Text} {spec : TunnelSpec} {slot : Slot} {e : Entry}
    (h : entriesOf serverIp spec slot = some e) : e.Within (netsAt spec slot) := by
  unfold entriesOf at h
  split at h
  · split at h
    · split at h
      · cases h
        exact fun n hn => hn
      · cases h
    · cases h
  · split at h <;> cases h
    trivial
  · split at h <;> cases h
    trivial
  · split at h <;> cases h
    trivial
  · split at h
    · cases h
    · split at h <;> cases h
      trivial

/-! ## What a task writes -/

/-- What a command writes at a place, if it does. -/
def Command.writes (slot : Slot) : Command → Option (Option Entry)
  | .setPeer publicKey presharedKey nets =>
    if slot = .peer publicKey then some (some (.peer presharedKey nets)) else none
  | .removePeer publicKey => if slot = .peer publicKey then some none else none
  | .replaceRoute net => if slot = .route net then some (some .present) else none
  | .deleteRoute net => if slot = .route net then some none else none
  | .addElements set values =>
    if slot ∈ values.map (.element set) then some (some .present) else none
  | .deleteElement set value => if slot = .element set value then some none else none
  | _ => none

/-- The networks that a command takes from the peers it does not write. -/
def Command.steals : Command → List Text
  | .setPeer _ _ nets => nets
  | _ => []

namespace Task

/-- What a task does to the managed state when it does not fail. -/
def effect (r : Runtime) : Task → Runtime
  | .attempt c => c.effect r
  | .require c => c.effect r
  | .file id text => Function.update r (.conf id) (text.map .file)

def writes (slot : Slot) : Task → Option (Option Entry)
  | .attempt c => c.writes slot
  | .require c => c.writes slot
  | .file id text => if slot = .conf id then some (text.map .file) else none

def steals : Task → List Text
  | .attempt c => c.steals
  | .require c => c.steals
  | .file _ _ => []

end Task

section Writes

variable (slot : Slot)

@[simp] theorem Task.writes_attempt (c : Command) : (Task.attempt c).writes slot = c.writes slot :=
  rfl

@[simp] theorem Task.writes_require (c : Command) : (Task.require c).writes slot = c.writes slot :=
  rfl

@[simp] theorem Task.writes_file (id : Text) (text : Option Text) :
    (Task.file id text).writes slot = if slot = .conf id then some (text.map .file) else none :=
  rfl

@[simp] theorem Command.writes_setPeer (k p : Text) (nets : List Text) :
    (Command.setPeer k p nets).writes slot =
      if slot = .peer k then some (some (.peer p nets)) else none :=
  rfl

@[simp] theorem Command.writes_removePeer (k : Text) :
    (Command.removePeer k).writes slot = if slot = .peer k then some none else none :=
  rfl

@[simp] theorem Command.writes_replaceRoute (n : Text) :
    (Command.replaceRoute n).writes slot =
      if slot = .route n then some (some .present) else none :=
  rfl

@[simp] theorem Command.writes_deleteRoute (n : Text) :
    (Command.deleteRoute n).writes slot = if slot = .route n then some none else none :=
  rfl

@[simp] theorem Command.writes_addElements (set : NftSet) (vs : List Text) :
    (Command.addElements set vs).writes slot =
      if slot ∈ vs.map (.element set) then some (some .present) else none :=
  rfl

@[simp] theorem Command.writes_deleteElement (set : NftSet) (v : Text) :
    (Command.deleteElement set v).writes slot =
      if slot = .element set v then some none else none :=
  rfl

end Writes

theorem map_without_nil (o : Option Entry) : o.map (·.without []) = o := by
  cases o with
  | none => rfl
  | some e => cases e <;> simp [Entry.without]

theorem Command.effect_apply (r : Runtime) (c : Command) (slot : Slot) :
    c.effect r slot = (c.writes slot).getD ((r slot).map (·.without c.steals)) := by
  cases c with
  | setPeer k p nets =>
    by_cases h : slot = .peer k <;> simp [Command.effect, Command.writes, Command.steals, h]
  | addElements set values =>
    simp only [Command.effect, Command.writes, Command.steals, map_without_nil]
    split <;> rfl
  | loadAll => simp [Command.effect, Command.writes, Command.steals, map_without_nil]
  | terminate name => simp [Command.effect, Command.writes, Command.steals, map_without_nil]
  | other b as i => simp [Command.effect, Command.writes, Command.steals, map_without_nil]
  | removePeer k =>
    by_cases h : slot = .peer k <;>
      simp [Command.effect, Command.writes, Command.steals, map_without_nil, Function.update, h]
  | replaceRoute n =>
    by_cases h : slot = .route n <;>
      simp [Command.effect, Command.writes, Command.steals, map_without_nil, Function.update, h]
  | deleteRoute n =>
    by_cases h : slot = .route n <;>
      simp [Command.effect, Command.writes, Command.steals, map_without_nil, Function.update, h]
  | deleteElement set v =>
    by_cases h : slot = .element set v <;>
      simp [Command.effect, Command.writes, Command.steals, map_without_nil, Function.update, h]

theorem Task.effect_apply (r : Runtime) (t : Task) (slot : Slot) :
    t.effect r slot = (t.writes slot).getD ((r slot).map (·.without t.steals)) := by
  cases t with
  | attempt c => exact c.effect_apply r slot
  | require c => exact c.effect_apply r slot
  | file id text =>
    by_cases h : slot = .conf id <;>
      simp [Task.effect, Task.writes, Task.steals, map_without_nil, Function.update, h]

/-- The entry misses nothing that the tasks take away at other places. -/
def Unstolen (ts : List Task) (slot : Slot) (o : Option Entry) : Prop :=
  ∀ e, o = some e → ∀ t ∈ ts, t.writes slot = none → e.without t.steals = e

theorem Unstolen.tail {t : Task} {ts : List Task} {slot : Slot} {o : Option Entry}
    (h : Unstolen (t :: ts) slot o) : Unstolen ts slot o :=
  fun e he u hu => h e he u (List.mem_cons_of_mem _ hu)

/-- The managed state behind tasks that all succeed. -/
def after (ts : List Task) (r : Runtime) : Runtime := ts.foldl Task.effect r

@[simp] theorem after_nil (r : Runtime) : after [] r = r := rfl

@[simp] theorem after_cons (t : Task) (ts : List Task) (r : Runtime) :
    after (t :: ts) r = after ts (t.effect r) := rfl

theorem after_append (ts us : List Task) (r : Runtime) :
    after (ts ++ us) r = after us (after ts r) := List.foldl_append

/-- Frame: where nothing is written, all stays as it is. -/
theorem after_of_unwritten {ts : List Task} {r : Runtime} {slot : Slot}
    (hw : ∀ t ∈ ts, t.writes slot = none) (hs : Unstolen ts slot (r slot)) :
    after ts r slot = r slot := by
  induction ts generalizing r with
  | nil => rfl
  | cons t ts ih =>
    have hhead := hw t List.mem_cons_self
    have hstep : t.effect r slot = r slot := by
      rw [Task.effect_apply, hhead, Option.getD_none]
      cases hr : r slot with
      | none => rfl
      | some e => rw [Option.map_some, hs e hr t List.mem_cons_self hhead]
    rw [after_cons, ih (fun u hu => hw u (List.mem_cons_of_mem _ hu)) (by rw [hstep]; exact hs.tail),
      hstep]

/-- Where all that is written is the same, and something is, that stands there in the end. -/
theorem after_of_written {ts : List Task} {slot : Slot} {w : Option Entry} (r : Runtime)
    (hall : ∀ t ∈ ts, ∀ v, t.writes slot = some v → v = w) (hs : Unstolen ts slot w)
    (hone : ∃ t ∈ ts, (t.writes slot).isSome) : after ts r slot = w := by
  induction ts generalizing r with
  | nil => obtain ⟨t, ht, _⟩ := hone; cases ht
  | cons t ts ih =>
    have hall' : ∀ u ∈ ts, ∀ v, u.writes slot = some v → v = w :=
      fun u hu => hall u (List.mem_cons_of_mem _ hu)
    rw [after_cons]
    by_cases hlater : ∃ u ∈ ts, (u.writes slot).isSome
    · exact ih _ hall' hs.tail hlater
    · -- the head writes last
      have hnone : ∀ u ∈ ts, u.writes slot = none := by
        intro u hu
        by_contra hne
        exact hlater ⟨u, hu, Option.isSome_iff_ne_none.mpr hne⟩
      have hhead : t.effect r slot = w := by
        obtain ⟨u, hu, hsome⟩ := hone
        rcases List.mem_cons.mp hu with rfl | hu
        · obtain ⟨v, hv⟩ := Option.isSome_iff_exists.mp hsome
          rw [Task.effect_apply, hv, hall u List.mem_cons_self v hv]
          rfl
        · exact absurd ⟨u, hu, hsome⟩ hlater
      rw [after_of_unwritten hnone (by rw [hhead]; exact hs.tail), hhead]

/-- Where nothing stands and only emptiness is written, nothing stands in the end. -/
theorem after_of_empty {ts : List Task} {r : Runtime} {slot : Slot} (hr : r slot = none)
    (hall : ∀ t ∈ ts, ∀ v, t.writes slot = some v → v = none) : after ts r slot = none := by
  by_cases hone : ∃ t ∈ ts, (t.writes slot).isSome
  · exact after_of_written r hall (fun e he => by cases he) hone
  · rw [after_of_unwritten _ (by rw [hr]; exact fun e he => by cases he), hr]
    intro t ht
    by_contra hne
    exact hone ⟨t, ht, Option.isSome_iff_ne_none.mpr hne⟩

/-- A peer gets no networks but those that it had and those that are written. -/
theorem after_within {ts : List Task} {r : Runtime} {slot : Slot} {nets : List Text}
    (hr : ∀ e, r slot = some e → e.Within nets)
    (hall : ∀ t ∈ ts, ∀ e, t.writes slot = some (some e) → e.Within nets) {e : Entry}
    (he : after ts r slot = some e) : e.Within nets := by
  induction ts generalizing r with
  | nil => exact hr e he
  | cons t ts ih =>
    refine ih ?_ (fun u hu => hall u (List.mem_cons_of_mem _ hu)) he
    intro e' he'
    rw [Task.effect_apply] at he'
    cases hw : t.writes slot with
    | some v =>
      rw [hw, Option.getD_some] at he'
      exact hall t List.mem_cons_self e' (by rw [hw, he'])
    | none =>
      rw [hw, Option.getD_none] at he'
      obtain ⟨e0, he0, rfl⟩ := Option.map_eq_some_iff.mp he'
      exact (hr e0 he0).without t.steals

/-! ## The tasks of an operation -/

/-- A task that takes something away. -/
def Task.IsCleanUp : Task → Prop
  | .attempt _ => True
  | .require _ => False
  | .file _ text => text = none

theorem mem_droppedNets {spec p : TunnelSpec} {n : Text} :
    n ∈ droppedNets spec (some p) ↔ n ∈ p.nets ∧ n ∉ spec.nets := by
  simp [droppedNets]

theorem droppedNets_none (spec : TunnelSpec) : droppedNets spec none = [] := rfl

/-- The tasks of a set-up. -/
theorem mem_setUpTasks {spec : TunnelSpec} {prev : Option TunnelSpec} {t : Task} :
    t ∈ setUpTasks spec prev ↔
      (∃ key psk, spec.tech = .wireguard key psk ∧
        ((∃ p former q, prev = some p ∧ p.tech = .wireguard former q ∧ former ≠ key ∧
            t = .attempt (.removePeer former)) ∨
          t = .require (.setPeer key psk spec.nets) ∨
          (∃ n ∈ droppedNets spec prev, t = .attempt (.deleteRoute n)) ∨
          ∃ n ∈ spec.nets, t = .require (.replaceRoute n))) ∨
      (∃ p, prev = some p ∧ p.peerIp ≠ spec.peerIp ∧
        t = .attempt (.deleteElement .sitePeers p.peerIp)) ∨
      (∃ n ∈ droppedNets spec prev, t = .attempt (.deleteElement .siteNets n)) ∨
      t = .require (.addElements .sitePeers [spec.peerIp]) ∨
      t = .require (.addElements .siteNets spec.nets) := by
  have hpeer : t ∈ peerTasks spec prev ↔ ∃ key psk, spec.tech = .wireguard key psk ∧
      ((∃ p former q, prev = some p ∧ p.tech = .wireguard former q ∧ former ≠ key ∧
          t = .attempt (.removePeer former)) ∨
        t = .require (.setPeer key psk spec.nets) ∨
        (∃ n ∈ droppedNets spec prev, t = .attempt (.deleteRoute n)) ∨
        ∃ n ∈ spec.nets, t = .require (.replaceRoute n)) := by
    unfold peerTasks
    cases spec.tech with
    | ipsec psk => simp
    | wireguard key psk =>
      rcases prev with _ | p
      · simp [eq_comm]
      · cases hp : p.tech with
        | ipsec q => simp [hp, eq_comm]
        | wireguard former q => by_cases hne : former = key <;> simp [hp, hne, eq_comm]
  have hwall : t ∈ firewallTasks spec prev ↔
      (∃ p, prev = some p ∧ p.peerIp ≠ spec.peerIp ∧
        t = .attempt (.deleteElement .sitePeers p.peerIp)) ∨
      (∃ n ∈ droppedNets spec prev, t = .attempt (.deleteElement .siteNets n)) ∨
      t = .require (.addElements .sitePeers [spec.peerIp]) ∨
      t = .require (.addElements .siteNets spec.nets) := by
    unfold firewallTasks
    rcases prev with _ | p
    · simp [eq_comm]
    · by_cases hne : p.peerIp = spec.peerIp
      · simp [hne, eq_comm]
      · simp [hne, Ne.symm hne, eq_comm]
  rw [setUpTasks, List.mem_append, hpeer, hwall]

/-- The tasks of a tear-down. -/
theorem mem_teardownTasks {p : TunnelSpec} {t : Task} :
    t ∈ teardownTasks p ↔
      (∃ key psk, p.tech = .wireguard key psk ∧
        (t = .attempt (.removePeer key) ∨ ∃ n ∈ p.nets, t = .attempt (.deleteRoute n))) ∨
      (isIpsec p.tech = true ∧ (t = .file p.id none ∨ t = .require .loadAll ∨
        t = .attempt (.terminate (connName p.id)))) ∨
      t = .attempt (.deleteElement .sitePeers p.peerIp) ∨
      ∃ n ∈ p.nets, t = .attempt (.deleteElement .siteNets n) := by
  unfold teardownTasks isIpsec
  cases p.tech with
  | ipsec psk => simp [eq_comm, or_assoc]
  | wireguard key psk => simp [eq_comm, or_assoc]

theorem Task.writes_iff {slot place : Slot} {v w : Option Entry} :
    (if slot = place then some v else none) = some w ↔ slot = place ∧ v = w := by
  simp

/-- What the set-up writes is what the tunnel has there. -/
theorem setUp_writes (serverIp : Text) {spec : TunnelSpec} {prev : Option TunnelSpec} {t : Task}
    {slot : Slot} {w : Option Entry} (ht : t ∈ setUpTasks spec prev) (hw : t.writes slot = some w) :
    w = entriesOf serverIp spec slot := by
  have hdropped : ∀ n ∈ droppedNets spec prev, n ∉ spec.nets := by
    intro n hn
    cases prev with
    | none => cases hn
    | some p => exact (mem_droppedNets.1 hn).2
  rcases mem_setUpTasks.1 ht with
    ⟨key, psk, hspec, ⟨p, former, q, _, _, hne, rfl⟩ | rfl | ⟨n, hn, rfl⟩ | ⟨n, hn, rfl⟩⟩ |
    ⟨p, _, hne, rfl⟩ | ⟨n, hn, rfl⟩ | rfl | rfl
  · obtain ⟨rfl, rfl⟩ := Task.writes_iff.1 hw
    simp [entriesOf, hspec, hne]
  · obtain ⟨rfl, rfl⟩ := Task.writes_iff.1 hw
    simp [entriesOf, hspec]
  · obtain ⟨rfl, rfl⟩ := Task.writes_iff.1 hw
    simp [entriesOf, hdropped n hn]
  · obtain ⟨rfl, rfl⟩ := Task.writes_iff.1 hw
    simp [entriesOf, hspec, isIpsec, hn]
  · obtain ⟨rfl, rfl⟩ := Task.writes_iff.1 hw
    simp [entriesOf, hne]
  · obtain ⟨rfl, rfl⟩ := Task.writes_iff.1 hw
    simp [entriesOf, hdropped n hn]
  · simp only [Task.writes_require, Command.writes_addElements, List.map_cons, List.map_nil,
      List.mem_singleton, Option.ite_none_right_eq_some] at hw
    obtain ⟨rfl, hw⟩ := hw
    cases hw
    simp [entriesOf]
  · simp only [Task.writes_require, Command.writes_addElements, List.mem_map,
      Option.ite_none_right_eq_some] at hw
    obtain ⟨⟨n, hn, rfl⟩, hw⟩ := hw
    cases hw
    simp [entriesOf, hn]

/-- What the set-up takes away belongs to the former tunnel of the same technique. -/
theorem setUp_clears {spec p : TunnelSpec} (hp : isIpsec p.tech = isIpsec spec.tech) {t : Task}
    {slot : Slot} (ht : t ∈ setUpTasks spec (some p)) (hw : t.writes slot = some none) :
    Owns p slot := by
  rcases mem_setUpTasks.1 ht with
    ⟨key, psk, hspec, ⟨p', former, q, hp', htech, _, rfl⟩ | rfl | ⟨n, hn, rfl⟩ | ⟨n, hn, rfl⟩⟩ |
    ⟨p', hp', _, rfl⟩ | ⟨n, hn, rfl⟩ | rfl | rfl
  · cases hp'
    obtain ⟨rfl, _⟩ := Task.writes_iff.1 hw
    exact owns_peer.2 ⟨q, htech⟩
  · cases (Task.writes_iff.1 hw).2
  · obtain ⟨rfl, _⟩ := Task.writes_iff.1 hw
    refine owns_route.2 ⟨?_, (mem_droppedNets.1 hn).1⟩
    rw [hp, hspec]
    rfl
  · cases (Task.writes_iff.1 hw).2
  · cases hp'
    obtain ⟨rfl, _⟩ := Task.writes_iff.1 hw
    exact owns_sitePeer.2 rfl
  · obtain ⟨rfl, _⟩ := Task.writes_iff.1 hw
    exact owns_siteNet.2 (mem_droppedNets.1 hn).1
  · simp at hw
  · simp at hw

theorem setUp_new_clears {spec : TunnelSpec} {t : Task} {slot : Slot}
    (ht : t ∈ setUpTasks spec none) : t.writes slot ≠ some none := by
  intro hw
  rcases mem_setUpTasks.1 ht with
    ⟨key, psk, _, ⟨p, former, q, hp, _⟩ | rfl | ⟨n, hn, _⟩ | ⟨n, hn, rfl⟩⟩ |
    ⟨p, hp, _⟩ | ⟨n, hn, _⟩ | rfl | rfl
  · cases hp
  · cases (Task.writes_iff.1 hw).2
  · cases hn
  · cases (Task.writes_iff.1 hw).2
  · cases hp
  · cases hn
  · simp at hw
  · simp at hw

/-- The set-up writes at every place of the tunnel but its file. -/
theorem setUp_covers {spec : TunnelSpec} (prev : Option TunnelSpec) {slot : Slot}
    (h : Owns spec slot) (hconf : ∀ id, slot ≠ .conf id) :
    ∃ t ∈ setUpTasks spec prev, (t.writes slot).isSome := by
  cases slot with
  | peer key =>
    obtain ⟨psk, hspec⟩ := owns_peer.1 h
    exact ⟨_, mem_setUpTasks.2 (.inl ⟨key, psk, hspec, .inr (.inl rfl)⟩),
      by simp⟩
  | route n =>
    obtain ⟨htech, hn⟩ := owns_route.1 h
    cases hspec : spec.tech with
    | ipsec psk => rw [hspec] at htech; cases htech
    | wireguard key psk =>
      exact ⟨_, mem_setUpTasks.2 (.inl ⟨key, psk, hspec, .inr (.inr (.inr ⟨n, hn, rfl⟩))⟩),
        by simp⟩
  | element set v =>
    cases set with
    | sitePeers =>
      rw [owns_sitePeer.1 h]
      exact ⟨_, mem_setUpTasks.2 (.inr (.inr (.inr (.inl rfl)))),
        by simp⟩
    | siteNets =>
      have hv := owns_siteNet.1 h
      exact ⟨_, mem_setUpTasks.2 (.inr (.inr (.inr (.inr rfl)))),
        by simp [hv]⟩
  | conf id => exact absurd rfl (hconf id)

/-- What the former tunnel of the same technique has beyond the new one is taken away. -/
theorem setUp_cleansUp {spec p : TunnelSpec} (hid : p.id = spec.id)
    (hp : isIpsec p.tech = isIpsec spec.tech) {slot : Slot} (h : Owns p slot)
    (hnot : ¬ Owns spec slot) :
    ∃ t ∈ setUpTasks spec (some p), t.IsCleanUp ∧ t.writes slot = some none := by
  cases slot with
  | peer key =>
    obtain ⟨q, hptech⟩ := owns_peer.1 h
    cases hspec : spec.tech with
    | ipsec psk => rw [hptech, hspec] at hp; cases hp
    | wireguard key' psk =>
      have hne : key ≠ key' := by
        rintro rfl
        exact hnot (owns_peer.2 ⟨psk, hspec⟩)
      exact ⟨_, mem_setUpTasks.2 (.inl ⟨key', psk, hspec, .inl ⟨p, key, q, rfl, hptech, hne, rfl⟩⟩),
        trivial, by simp⟩
  | route n =>
    obtain ⟨htech, hn⟩ := owns_route.1 h
    have hdropped : n ∈ droppedNets spec (some p) :=
      mem_droppedNets.2 ⟨hn, fun hin => hnot (owns_route.2 ⟨hp ▸ htech, hin⟩)⟩
    cases hspec : spec.tech with
    | ipsec psk => rw [hp, hspec] at htech; cases htech
    | wireguard key psk =>
      exact ⟨_, mem_setUpTasks.2 (.inl ⟨key, psk, hspec, .inr (.inr (.inl ⟨n, hdropped, rfl⟩))⟩),
        trivial, by simp⟩
  | element set v =>
    cases set with
    | sitePeers =>
      have hv := owns_sitePeer.1 h
      subst hv
      have hne : p.peerIp ≠ spec.peerIp := fun heq => hnot (owns_sitePeer.2 heq)
      exact ⟨_, mem_setUpTasks.2 (.inr (.inl ⟨p, rfl, hne, rfl⟩)), trivial,
        by simp⟩
    | siteNets =>
      have hdropped : v ∈ droppedNets spec (some p) :=
        mem_droppedNets.2 ⟨owns_siteNet.1 h, fun hin => hnot (owns_siteNet.2 hin)⟩
      exact ⟨_, mem_setUpTasks.2 (.inr (.inr (.inl ⟨v, hdropped, rfl⟩))), trivial,
        by simp⟩
  | conf id =>
    obtain ⟨htech, rfl⟩ := owns_conf.1 h
    exact absurd (owns_conf.2 ⟨hp ▸ htech, hid⟩) hnot

/-- A tear-down writes nothing but that a place of the tunnel is empty. -/
theorem teardown_writes {p : TunnelSpec} {t : Task} {slot : Slot} {w : Option Entry}
    (ht : t ∈ teardownTasks p) (hw : t.writes slot = some w) : w = none ∧ Owns p slot := by
  rcases mem_teardownTasks.1 ht with
    ⟨key, psk, hp, rfl | ⟨n, hn, rfl⟩⟩ | ⟨hp, rfl | rfl | rfl⟩ | rfl | ⟨n, hn, rfl⟩
  · obtain ⟨rfl, rfl⟩ := Task.writes_iff.1 hw
    exact ⟨rfl, owns_peer.2 ⟨psk, hp⟩⟩
  · obtain ⟨rfl, rfl⟩ := Task.writes_iff.1 hw
    exact ⟨rfl, owns_route.2 ⟨by rw [hp]; rfl, hn⟩⟩
  · obtain ⟨rfl, rfl⟩ := Task.writes_iff.1 hw
    exact ⟨rfl, owns_conf.2 ⟨hp, rfl⟩⟩
  · cases hw
  · cases hw
  · obtain ⟨rfl, rfl⟩ := Task.writes_iff.1 hw
    exact ⟨rfl, owns_sitePeer.2 rfl⟩
  · obtain ⟨rfl, rfl⟩ := Task.writes_iff.1 hw
    exact ⟨rfl, owns_siteNet.2 hn⟩

/-- A tear-down empties every place of the tunnel. -/
theorem teardown_cleansUp {p : TunnelSpec} {slot : Slot} (h : Owns p slot) :
    ∃ t ∈ teardownTasks p, t.IsCleanUp ∧ t.writes slot = some none := by
  cases slot with
  | peer key =>
    obtain ⟨psk, hp⟩ := owns_peer.1 h
    exact ⟨_, mem_teardownTasks.2 (.inl ⟨key, psk, hp, .inl rfl⟩), trivial,
      by simp⟩
  | route n =>
    obtain ⟨htech, hn⟩ := owns_route.1 h
    cases hp : p.tech with
    | ipsec psk => rw [hp] at htech; cases htech
    | wireguard key psk =>
      exact ⟨_, mem_teardownTasks.2 (.inl ⟨key, psk, hp, .inr ⟨n, hn, rfl⟩⟩), trivial,
        by simp⟩
  | element set v =>
    cases set with
    | sitePeers =>
      rw [owns_sitePeer.1 h]
      exact ⟨_, mem_teardownTasks.2 (.inr (.inr (.inl rfl))), trivial,
        by simp⟩
    | siteNets =>
      exact ⟨_, mem_teardownTasks.2 (.inr (.inr (.inr ⟨v, owns_siteNet.1 h, rfl⟩))), trivial,
        by simp⟩
  | conf id =>
    obtain ⟨htech, rfl⟩ := owns_conf.1 h
    exact ⟨_, mem_teardownTasks.2 (.inr (.inl ⟨htech, .inl rfl⟩)), rfl,
      by simp⟩

/-- Only the peer of the tunnel takes networks from other peers. -/
theorem setUp_steals {spec : TunnelSpec} {prev : Option TunnelSpec} {t : Task}
    (ht : t ∈ setUpTasks spec prev) :
    t.steals = [] ∨ ∃ key psk, spec.tech = .wireguard key psk ∧
      t = .require (.setPeer key psk spec.nets) := by
  rcases mem_setUpTasks.1 ht with
    ⟨key, psk, hspec, ⟨p, former, q, _, _, _, rfl⟩ | rfl | ⟨n, hn, rfl⟩ | ⟨n, hn, rfl⟩⟩ |
    ⟨p, _, _, rfl⟩ | ⟨n, hn, rfl⟩ | rfl | rfl
  · exact .inl rfl
  · exact .inr ⟨key, psk, hspec, rfl⟩
  · exact .inl rfl
  · exact .inl rfl
  · exact .inl rfl
  · exact .inl rfl
  · exact .inl rfl
  · exact .inl rfl

theorem teardown_steals {p : TunnelSpec} {t : Task} (ht : t ∈ teardownTasks p) :
    t.steals = [] := by
  rcases mem_teardownTasks.1 ht with
    ⟨key, psk, _, rfl | ⟨n, _, rfl⟩⟩ | ⟨_, rfl | rfl | rfl⟩ | rfl | ⟨n, _, rfl⟩
  · rfl
  · rfl
  · rfl
  · rfl
  · rfl
  · rfl
  · rfl

end Klick.SiteTunnels
