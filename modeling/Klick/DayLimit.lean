-- The limit of a day. What the state sums up is what the journal has in the window,
-- so at every first signature the window is within the policy of that time.
import Klick.Payments
import Klick.Tightening

open Js

namespace Klick

/-! ## First signatures in a window -/

/-- The amount of the first signature of an asset, if its time lies in the window. -/
def IntentRecord.firstAmount (code : AssetCode) (window : ℤ → Bool) (r : IntentRecord) : ℕ :=
  match r.first with
  | some x => if x.signed.asset = code ∧ window x.time then x.signed.amount else 0
  | none => 0

/-- The amount that an event adds as the first signature of an asset in the window. -/
def Timed.firstAmount (code : AssetCode) (window : ℤ → Bool) (e : Timed) : ℕ :=
  match e.event.body.firstSigned? with
  | some d => if d.asset = code ∧ window e.event.time then d.amount else 0
  | none => 0

/-- The sum of the first signatures of an asset that the journal has in a window. -/
def signedWithin (es : List Timed) (code : AssetCode) (window : ℤ → Bool) : ℕ :=
  (es.map (·.firstAmount code window)).sum

theorem signedWithin_append (es : List Timed) (e : Timed) (code : AssetCode)
    (window : ℤ → Bool) : signedWithin (es ++ [e]) code window =
      signedWithin es code window + e.firstAmount code window := by
  simp [signedWithin]

/-- A wider window has no smaller sum. -/
theorem signedWithin_mono {es : List Timed} {code : AssetCode} {window wider : ℤ → Bool}
    (h : ∀ t, window t = true → wider t = true) :
    signedWithin es code window ≤ signedWithin es code wider := by
  unfold signedWithin
  apply List.sum_le_sum
  intro e _
  unfold Timed.firstAmount
  split
  · split_ifs with h1 h2
    · exact le_rfl
    · exact absurd ⟨h1.1, h _ h1.2⟩ h2
    · exact Nat.zero_le _
    · exact le_rfl
  · exact le_rfl

/-- The amount depends on the first signature only. -/
theorem firstAmount_congr {code : AssetCode} {window : ℤ → Bool} {r r' : IntentRecord}
    (h : r'.first = r.first) : r'.firstAmount code window = r.firstAmount code window := by
  unfold IntentRecord.firstAmount
  rw [h]

/-- What an event adds to the sum is what it adds at its own intent. -/
theorem weight_firstAmount {P : Platform} {s s' : SignerState} {now : ℤ} {e : SignerEvent}
    (hadm : Admitted P s now e.body) (happly : apply P.addresses s e = .ok s')
    (hnew : ∀ k, e.body.opens? = some k → s.intents.get k = none) {k : Text}
    (hk : e.body.intentId? = some k) (code : AssetCode) (window : ℤ → Bool) :
    s'.intents.weightAt (·.firstAmount code window) k =
      s.intents.weightAt (·.firstAmount code window) k +
        (Timed.mk now e).firstAmount code window := by
  -- a change of a record that keeps its first signature
  have hmod : ∀ f : IntentRecord → IntentRecord, (∀ r, (f r).first = r.first) →
      (s.intents.modify k f).weightAt (·.firstAmount code window) k =
        s.intents.weightAt (·.firstAmount code window) k := by
    intro f hf
    rw [OrderedMap.weightAt_modify, OrderedMap.weightAt]
    cases s.intents.get k with
    | none => rfl
    | some r => exact firstAmount_congr (hf r)
  obtain ⟨n, t, body⟩ := e
  cases body with
  | intent intentId text mandateId =>
    obtain rfl := Option.some.inj hk
    obtain ⟨i, -, hs⟩ := bind_eq_ok.mp happly
    obtain rfl := Except.ok.inj hs
    rw [OrderedMap.weightAt_set, OrderedMap.weightAt, hnew _ rfl]
    have hfirst := first_of_signatures
      (opened_same s (newIntent intentId text i mandateId t) t).signatures
    exact firstAmount_congr hfirst
  | approval intentId credId person counter =>
    obtain rfl := Option.some.inj hk
    obtain rfl := Except.ok.inj happly
    apply hmod
    intro r
    exact first_of_signatures (settle_same _ _ _).signatures
  | cancel intentId origin | veto intentId =>
    obtain rfl := Option.some.inj hk
    obtain rfl := Except.ok.inj happly
    exact hmod _ fun _ => rfl
  | signed d =>
    obtain rfl := Option.some.inj hk
    obtain rfl := Except.ok.inj happly
    rw [OrderedMap.weightAt_modify]
    cases hadm with
    | first hfor _ hnone hmode _ _ =>
      rw [OrderedMap.weightAt, hfor.record]
      simp only [Option.elim_some, IntentRecord.firstAmount, IntentRecord.first, hnone,
        Timed.firstAmount, EventBody.firstSigned?, EventBody.signed?, Option.filter_some, hmode]
      simp [SignMode.isFirst, hmode]
    | again hfor hmode hfirst _ _ =>
      rw [OrderedMap.weightAt, hfor.record]
      have hsame := @firstAmount_congr code window _ _ (first_signedBy hfirst n t d)
      simp only [Option.elim_some, Timed.firstAmount, EventBody.firstSigned?, EventBody.signed?,
        Option.filter_some, hmode]
      exact hsame
  | _ => cases hk

/-- The sum of the state grows by what the event adds. -/
theorem sum_firstAmount {P : Platform} {s s' : SignerState} {now : ℤ} {e : SignerEvent}
    (hadm : Admitted P s now e.body) (happly : apply P.addresses s e = .ok s')
    (hnew : ∀ k, e.body.opens? = some k → s.intents.get k = none) (code : AssetCode)
    (window : ℤ → Bool) : s'.intents.sum (·.firstAmount code window) =
      s.intents.sum (·.firstAmount code window) + (Timed.mk now e).firstAmount code window := by
  have hoff : ∀ k, e.body.intentId? ≠ some k →
      s'.intents.weightAt (·.firstAmount code window) k =
        s.intents.weightAt (·.firstAmount code window) k := by
    intro k hne
    rw [OrderedMap.weightAt, OrderedMap.weightAt, intents_elsewhere happly hne]
  cases hid : e.body.intentId? with
  | none =>
    have hzero : (Timed.mk now e).firstAmount code window = 0 := by
      rw [Timed.firstAmount]
      cases hb : e.body with
      | signed d =>
        rw [hb] at hid
        cases hid
      | _ => rfl
    rw [hid] at hoff
    have hall : ∀ j, s'.intents.weightAt (·.firstAmount code window) j =
        s.intents.weightAt (·.firstAmount code window) j := fun j => hoff j (by simp)
    have hstep := OrderedMap.sum_step (k := []) fun j _ => hall j
    have hnil := hall []
    omega
  | some k =>
    have hstep := OrderedMap.sum_step (k := k) fun j hj =>
      hoff j (by rw [hid]; exact fun hc => hj (Option.some.inj hc).symm)
    have hk := weight_firstAmount hadm happly hnew hid code window
    omega

/-- The sum of the state is the sum of the journal, where every intent has its own id. -/
theorem History.sum_firstAmount {P : Platform} {s : SignerState} {es : List Timed}
    (h : History P s es) (hfresh : (openedIds es).Nodup) (code : AssetCode)
    (window : ℤ → Bool) :
    s.intents.sum (·.firstAmount code window) = signedWithin es code window := by
  revert hfresh
  apply History.induct _ _ h
  · intro _
    rfl
  · intro s s' es now e hist ih hadm happly hfresh
    have hbefore : (openedIds es).Nodup := by
      rw [openedIds_append] at hfresh
      exact hfresh.of_append_left
    have hnew : ∀ k, e.body.opens? = some k → s.intents.get k = none := by
      intro k hk
      rw [openedIds_concat, hk] at hfresh
      rw [← Option.not_isSome_iff_eq_none]
      intro hsome
      exact List.disjoint_of_nodup_append hfresh ((hist.allSignatures hbefore).opened k hsome)
        List.mem_cons_self
    rw [Klick.sum_firstAmount hadm happly hnew, ih hbefore, signedWithin_append]

/-! ## In every run -/

/-- The seconds of the day that ends at a time. -/
def lastDay (t : ℤ) (u : ℤ) : Bool := t - 86400 < u ∧ u ≤ t

/-- The bound per day of a policy, as the check of a payout reads it. -/
def Policy.perDay (p : Policy) (code : AssetCode) : Except Exn ℤ :=
  ((p.limit code).get (js "perDay")).toBigInt

/-- What the check sums up is what the journal has of the day before the reading. -/
theorem signedLast24h_eq {P : Platform} {s : SignerState} {es : List Timed} (h : History P s es)
    (hfresh : (openedIds es).Nodup) (code : AssetCode) {now : ℤ} (hnow : IsTime now) :
    signedLast24h s code now = signedWithin es code fun u => now - 86400 < u := by
  have hplus : plus now (-86400) = now - 86400 := by
    obtain ⟨h1, h2⟩ := hnow
    have habs : |now + -86400| ≤ 2 ^ 53 := abs_le.mpr ⟨by omega, by omega⟩
    rw [plus_eq habs]
    omega
  have hcounts : countsForDay code now =
      (·.firstAmount code fun u => now - 86400 < u) := by
    funext r
    unfold countsForDay IntentRecord.firstAmount
    rw [hplus]
    cases r.first <;> simp
  rw [signedLast24h, hcounts]
  exact h.sum_firstAmount hfresh code _

/-- A request for the first signature of a signed payout is only answered. -/
theorem sign_again_answers {P : Platform} {g : Signer} {call : Call} {a : Value}
    {r : IntentRecord} {mode : SignMode} {d : Decision} (ha : argsOf call = .ok a)
    (hr : intentOf g.state (arg a "intentId") = .ok r) (hsigned : r.signatures ≠ [])
    (hmode : signModeOf (arg a "mode") = .ok mode) (hfirst : mode.isFirst = true)
    (h : sign P g call = .ok d) : ∃ v, d = .answer v := by
  unfold sign at h
  simp only [bind_eq_ok, check_eq_ok, exists_const, ha, hr, hmode, Except.ok.injEq,
    exists_eq_left', hfirst, if_true] at h
  obtain ⟨⟨init, policy⟩, -, _, -, i, -, -, account, -, h⟩ := h
  split at h
  · obtain rfl := pure_eq_ok.mp h
    exact ⟨_, rfl⟩
  · rename_i hlast
    exact absurd (List.getLast?_eq_none_iff.mp hlast) hsigned

/-- The first signatures of the day before a first signature, with itself, are
within the bound per day of the policy in force. -/
theorem first_signature_within_day {P : Platform} (hA : AddressShapes P.addresses)
    {as : List Action} {g : Signer} {es : List Timed} (h : Run P as g es) (hc : NonDecreasing as)
    (hd : (drawnIds as).Nodup) {pre post : List Timed} {e : Timed} {d : Signed}
    (hes : es = pre ++ e :: post) (hbody : e.event.body = .signed d) (hmode : d.mode = .first) :
    ∃ s policy day, replay P.addresses (events pre) = .ok s ∧ s.policy = some policy ∧
      policy.perDay d.asset = .ok day ∧
      (signedWithin (pre ++ [e]) d.asset (lastDay e.event.time) : ℤ) ≤ day := by
  obtain ⟨s, s', hist, hadm, -, -⟩ := (h.reached hA).history.before hes
  have hmem : e ∈ es := by
    rw [hes]
    exact List.mem_append_right _ List.mem_cons_self
  have hstamp : e.now ≤ e.event.time := (h.timely hA hc).stamped e hmem
  obtain ⟨c, -, hnow, -⟩ := h.stamps hA e hmem
  have htime : IsTime e.now := hnow ▸ c.isTime.1
  have hfresh : (openedIds pre).Nodup := by
    have hall := h.opened_once hA hd
    rw [hes, openedIds_append] at hall
    exact hall.of_append_left
  rw [hbody] at hadm
  cases hadm with
  | @first _ r i policy hfor hpolicy _ _ hguards _ =>
    obtain ⟨-, hasset, hamount⟩ := hfor.same
    obtain ⟨-, most, day, -, hday, -, hsum⟩ := spendAllowed_ok.mp hguards.spend
    refine ⟨s, policy, day, hist.replay, hpolicy, ?_, ?_⟩
    · rw [hasset]
      exact hday
    · rw [signedLast24h_eq hist hfresh _ htime] at hsum
      have hmono : signedWithin pre d.asset (lastDay e.event.time) ≤
          signedWithin pre i.asset fun u => e.now - 86400 < u := by
        rw [hasset]
        apply signedWithin_mono
        intro u hu
        simp only [lastDay, decide_eq_true_eq] at hu ⊢
        omega
      have hown : e.firstAmount d.asset (lastDay e.event.time) ≤ i.amount := by
        rw [← hamount, Timed.firstAmount, hbody, EventBody.firstSigned?, EventBody.signed?,
          Option.filter_some, hmode]
        simp only [SignMode.isFirst, if_true]
        split_ifs
        · exact le_rfl
        · exact Nat.zero_le _
      rw [signedWithin_append]
      omega
  | again _ hagain _ _ _ =>
    rw [hmode] at hagain
    cases hagain

/-- **The limit of a day** holds at every first signature, in the order of the
journal. A replacement adds nothing to a sum, and a first signature that is asked
for again adds nothing and writes nothing. -/
theorem day_limit_holds_in_journal_order {P : Platform} (hA : AddressShapes P.addresses)
    {as : List Action} {g : Signer} {es : List Timed} (h : Run P as g es) (hc : NonDecreasing as)
    (hd : (drawnIds as).Nodup) :
    (∀ pre e post d, es = pre ++ e :: post → e.event.body = .signed d → d.mode = .first →
      ∃ s policy day, replay P.addresses (events pre) = .ok s ∧ s.policy = some policy ∧
        policy.perDay d.asset = .ok day ∧
        (signedWithin (pre ++ [e]) d.asset (lastDay e.event.time) : ℤ) ≤ day) ∧
    (∀ pre e post d, es = pre ++ e :: post → e.event.body = .signed d → d.mode.isFirst = false →
      ∀ code window, signedWithin (pre ++ [e]) code window = signedWithin pre code window) ∧
    (∀ call a r mode, argsOf call = .ok a → intentOf g.state (arg a "intentId") = .ok r →
      r.signatures ≠ [] → signModeOf (arg a "mode") = .ok mode → mode.isFirst = true →
      (run P g .sign call).recorded = [] ∧ (run P g .sign call).signer = g) := by
  refine ⟨fun pre e post d hes hbody hmode =>
    first_signature_within_day hA h hc hd hes hbody hmode, ?_, ?_⟩
  · intro pre e post d _ hbody hmode code window
    have hzero : e.firstAmount code window = 0 := by
      rw [Timed.firstAmount, hbody, EventBody.firstSigned?, EventBody.signed?,
        Option.filter_some, hmode]
      rfl
    rw [signedWithin_append, hzero, Nat.add_zero]
  · intro call a r mode ha hr hsigned hmode hfirst
    simp only [run, carryOut]
    cases hs : sign P g call with
    | error f => exact ⟨rfl, rfl⟩
    | ok dec =>
      obtain ⟨v, rfl⟩ := sign_again_answers ha hr hsigned hmode hfirst hs
      exact ⟨rfl, rfl⟩

/-- At the first signature of the sample the limit holds. -/
theorem sample_day_limit : ∃ pre e post d s policy day, sample.2 = pre ++ e :: post ∧
    e.event.body = .signed d ∧ replay sampleLib (events pre) = .ok s ∧ s.policy = some policy ∧
    policy.perDay d.asset = .ok day ∧
    (signedWithin (pre ++ [e]) d.asset (lastDay e.event.time) : ℤ) ≤ day := by
  obtain ⟨pre, e1, e2, e3, d1, _, _, hes, h1, -⟩ := sample_end
  obtain ⟨hbody, hmode, -⟩ := signs_eq_some h1
  obtain ⟨s, policy, day, hs, hpolicy, hday, hle⟩ := (day_limit_holds_in_journal_order
    sampleLib_shapes sample_run sample_nonDecreasing sample_draws).1 pre e1 [e2, e3] d1 hes hbody
    hmode
  exact ⟨pre, e1, [e2, e3], d1, s, policy, day, hes, hbody, hs, hpolicy, hday, hle⟩

/-- Later signatures of the same second are not in the sum that was checked: a
new policy of that second lets the sum over the whole window pass the old bound. -/
theorem a_day_may_pass_an_older_limit : ∃ pre e post d s policy day,
    NonDecreasing (sampleLines.map SocketLine.action) ∧
    Run samplePlatform (sampleLines.map SocketLine.action) sample.1 (pre ++ e :: post) ∧
    e.event.body = .signed d ∧ d.mode = .first ∧ replay sampleLib (events pre) = .ok s ∧
    s.policy = some policy ∧ policy.perDay d.asset = .ok day ∧
    day < signedWithin (pre ++ e :: post) d.asset (lastDay e.event.time) := by
  obtain ⟨pre, e1, e2, e3, d1, d3, s, hes, h1, h3, -, hs, hday⟩ := sample_end
  obtain ⟨hbody1, hmode1, hasset1, hamount1, htime1⟩ := signs_eq_some h1
  obtain ⟨hbody3, hmode3, hasset3, hamount3, htime3⟩ := signs_eq_some h3
  obtain ⟨policy, hpolicy, hday⟩ := Option.bind_eq_some_iff.mp hday
  have hlimit : policy.perDay d1.asset = .ok 1000 := by
    rw [hasset1]
    unfold Policy.perDay
    cases hlim : ((policy.limit .eth).get (js "perDay")).toBigInt with
    | error x =>
      rw [hlim] at hday
      cases hday
    | ok day =>
      rw [hlim] at hday
      rw [Option.some.inj hday]
  have hrun := sample_run
  rw [hes] at hrun
  refine ⟨pre, e1, [e2, e3], d1, s, policy, 1000, sample_nonDecreasing, hrun, hbody1, hmode1, hs,
    hpolicy, hlimit, ?_⟩
  have hown : ∀ (e : Timed) (d : Signed), e.event.body = .signed d → d.mode = .first → d.asset = AssetCode.eth →
      d.amount = 1000 → e.event.time = 1800000001 →
      e.firstAmount d1.asset (lastDay e1.event.time) = 1000 := by
    intro e d hbody hmode hasset hamount htime
    rw [Timed.firstAmount, hbody, EventBody.firstSigned?, EventBody.signed?, Option.filter_some,
      hmode]
    simp [SignMode.isFirst, hasset, hasset1, hamount, htime, htime1, lastDay]
  have hsum : signedWithin (pre ++ [e1, e2, e3]) d1.asset (lastDay e1.event.time) =
      signedWithin pre d1.asset (lastDay e1.event.time) + 1000 +
        e2.firstAmount d1.asset (lastDay e1.event.time) + 1000 := by
    rw [show pre ++ [e1, e2, e3] = pre ++ [e1] ++ [e2] ++ [e3] by simp, signedWithin_append,
      signedWithin_append, signedWithin_append,
      hown e1 d1 hbody1 hmode1 hasset1 hamount1 htime1,
      hown e3 d3 hbody3 hmode3 hasset3 hamount3 htime3]
  rw [hsum]
  omega

end Klick
