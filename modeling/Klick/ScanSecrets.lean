-- What a scan file says about a secret apart from its first four characters and its
-- length: a file with holes for the secret, two fillings of them, and the findings.
import Klick.ScanReading

namespace Klick.Security

open Js Findings Templates

/-! ## Two secrets -/

/-- A long secret, without blanks around it. -/
structure Secret (s : Text) : Prop where
  long : 12 < s.length
  trimmed : trim s = s

/-- Secrets that are redacted to the same text. -/
structure SameHead (s s' : Text) : Prop where
  left : Secret s
  right : Secret s'
  length : s.length = s'.length
  head : s.take 4 = s'.take 4

theorem Secret.ne_nil {s : Text} (h : Secret s) : s ≠ [] := by
  have := h.long
  rintro rfl
  simp at this

theorem starts_of_dropWhile {s : Text} (hne : s ≠ []) (h : s.dropWhile isTrimmed = s) :
    Starts isTrimmed s := by
  obtain ⟨u, r, rfl⟩ := List.exists_cons_of_ne_nil hne
  refine ⟨u, r, rfl, ?_⟩
  by_contra hu
  rw [Bool.not_eq_false] at hu
  rw [List.dropWhile_cons_of_pos hu] at h
  have := (List.dropWhile_sublist (l := r) isTrimmed).length_le
  rw [h, List.length_cons] at this
  omega

/-- A secret starts and ends with no blank. -/
theorem Secret.starts {s : Text} (h : Secret s) :
    Starts isTrimmed s ∧ Starts isTrimmed s.reverse := by
  have htrim := h.trimmed
  unfold trim at htrim
  have hleft := (List.dropWhile_sublist (l := s) isTrimmed).length_le
  have hright :=
    (List.dropWhile_sublist (l := (s.dropWhile isTrimmed).reverse) isTrimmed).length_le
  have hlength := congrArg List.length htrim
  rw [List.length_reverse] at hright hlength
  have hfront : s.dropWhile isTrimmed = s :=
    (List.dropWhile_sublist isTrimmed).eq_of_length (by omega)
  refine ⟨starts_of_dropWhile h.ne_nil hfront, ?_⟩
  apply starts_of_dropWhile (by simpa using h.ne_nil)
  rw [hfront] at htrim
  rw [← List.reverse_inj, List.reverse_reverse]
  exact htrim

/-- The blanks around a filled text are those of its template. -/
theorem trim_fill {s : Text} (h : Secret s) (t : Template UInt16) :
    trim (fill t s) = fill (trimmed isTrimmed t) s := fill_trimmed h.starts.1 h.starts.2 t

theorem SameHead.redact {s s' : Text} (h : SameHead s s') :
    redactSecret (some s) = redactSecret (some s') := by
  have hlong' := h.right.long
  unfold redactSecret
  simp only [h.left.trimmed, h.right.trimmed, if_neg h.left.ne_nil, if_neg h.right.ne_nil,
    if_pos hlong', h.length, h.head]

/-! ## Files with holes -/

/-- A text field with holes, or another value. -/
inductive TextField where
  | fixed (v : Value)
  | text (t : Template UInt16)

def TextField.value : TextField → Text → Value
  | .fixed v, _ => v
  | .text t, s => .str (fill t s)

/-- The template of what is read of a field: the blanks around it do not count. -/
def TextField.read : TextField → Template UInt16
  | .fixed (.str l) => trimmed isTrimmed [some l]
  | .fixed _ => []
  | .text t => trimmed isTrimmed t

theorem TextField.str_value (f : TextField) {s : Text} (h : Secret s) :
    str (f.value s) = if fill f.read s = [] then none else some (fill f.read s) := by
  have hstr (l : Text) : str (.str l) = if trim l = [] then none else some (trim l) := rfl
  cases f with
  | text t => rw [TextField.value, TextField.read, hstr, trim_fill h]
  | fixed v =>
    cases v with
    | str l =>
      have hfill : fill [some l] s = l := by simp
      rw [TextField.value, TextField.read, hstr, ← trim_fill h, hfill]
    | _ => simp [TextField.value, TextField.read, str]

/-- The values of two fillings agree in all fields but some. -/
def AgreeBut (ks : List String) (item : Text → Value) : Prop :=
  ∀ s s' k, k ∉ ks.map js → (item s).get k = (item s').get k

theorem AgreeBut.prop {ks : List String} {item : Text → Value} (h : AgreeBut ks item)
    (s s' : Text) (k : String) (hk : js k ∉ ks.map js) :
    prop (item s) k = prop (item s') k := h s s' (js k) hk

/-- An item of gitleaks: the secret stands in `Secret` or something else does, and maybe the
secret stands in `Match` too. -/
structure LeakTemplate where
  item : Text → Value
  /-- What stands in `Secret` where the secret does not. -/
  instead : Option Value
  found : TextField
  secret : ∀ s, prop (item s) "Secret" = instead.getD (.str s)
  matched : ∀ s, prop (item s) "Match" = found.value s
  rest : AgreeBut ["Secret", "Match"] item

/-- A result of a secret tool or a secret rule; the secret may stand in its message and in
its snippets. -/
structure ResultTemplate where
  run : SarifRun
  item : Text → Value
  message : TextField
  tags : List Text
  readTags : ∀ s, resultTags run (item s) = .ok tags
  ofSecret : (run.isSecretTool || tags.any (mentions "secret")) = true
  readMessage : ∀ s, resultMessage (item s) = str (message.value s)
  location : ∀ s s', resultLocation (item s) = resultLocation (item s')
  rest : AgreeBut ["message", "locations"] item

/-- A secret of a Trivy file, which may stand in its `Match` and in its `Code`. -/
structure TrivyTemplate where
  target : Option Text
  item : Text → Value
  rest : AgreeBut ["Match", "Code"] item

/-- An object of a file with holes. -/
inductive Holder where
  | plain (o : ScanObject)
  | leak (t : LeakTemplate)
  | result (t : ResultTemplate)
  | trivy (t : TrivyTemplate)

def Holder.version (s : Text) : Holder → ScanObject
  | .plain o => o
  | .leak t => .gitleaksItem (t.item s)
  | .result t => .sarifResult t.run (t.item s)
  | .trivy t => .trivySecret t.target (t.item s)

/-! ## Guards -/

/-- The secret stands in `Secret`, or nowhere in what is read of `Match`. -/
def LeakTemplate.Guarded (t : LeakTemplate) : Prop :=
  t.instead = none ∨ firstHole t.found.read = none

/-- What the rule says of a result in short. -/
def ResultTemplate.shortText (t : ResultTemplate) (s : Text) : Option Text :=
  strIn (prop (resultRule t.run (t.item s)) "shortDescription") "text"

/-- The rule has a short description, or the secret stands behind what the title takes of
the message. -/
def ResultTemplate.Guarded (t : ResultTemplate) : Prop :=
  (t.shortText []).isSome = true ∨ ∀ p ∈ firstHole t.message.read, 196 ≤ p

def Holder.Guarded : Holder → Prop
  | .plain _ => True
  | .leak t => t.Guarded
  | .result t => t.Guarded
  | .trivy _ => True

/-- The template of the text with the secret that is read of an object. -/
def Holder.read : Holder → Template UInt16
  | .leak t => t.found.read
  | .result t => t.message.read
  | _ => []

/-- The secret stands in the text in its own places only. -/
def Holder.Found (s : Text) (h : Holder) : Prop := OnlyThere s h.read

/-! ## Leaks -/

/-- The evidence of a leak. -/
def evidenceOf (found secret : Option Text) : Option Text :=
  (redactIn found secret).or (redactSecret secret)

theorem gitleaksFinding_eq_iff (t : LeakTemplate) (s s' : Text) :
    gitleaksFinding (t.item s) = gitleaksFinding (t.item s') ↔
      evidenceOf (str (t.found.value s)) (str (t.instead.getD (.str s))) =
        evidenceOf (str (t.found.value s')) (str (t.instead.getD (.str s'))) := by
  have hrule := t.rest.prop s s' "RuleID" (by decide)
  have htitle := t.rest.prop s s' "Description" (by decide)
  have hfile := t.rest.prop s s' "File" (by decide)
  have hline := t.rest.prop s s' "StartLine" (by decide)
  have hprint := t.rest.prop s s' "Fingerprint" (by decide)
  unfold gitleaksFinding evidenceOf
  simp only [hrule, htitle, hfile, hline, hprint, t.secret, t.matched,
    NormalizedFinding.mk.injEq, true_and, and_true]

theorem str_secret {s : Text} (h : Secret s) : str (.str s) = some s := by
  have hstr : str (.str s) = if trim s = [] then none else some (trim s) := rfl
  rw [hstr, h.trimmed, if_neg h.ne_nil]

/-- A secret in its own field is redacted in `Match` too, where it stands there in its own
places only. -/
theorem evidence_of_own {f : TextField} {s s' : Text} (h : SameHead s s')
    (hs : OnlyThere s f.read) (hs' : OnlyThere s' f.read) :
    evidenceOf (str (f.value s)) (some s) = evidenceOf (str (f.value s')) (some s') := by
  have hlength := length_fill f.read h.length
  unfold evidenceOf redactIn
  rw [f.str_value h.left, f.str_value h.right]
  by_cases hempty : fill f.read s = []
  · have hempty' : fill f.read s' = [] := by
      rw [← List.length_eq_zero_iff, ← hlength, hempty, List.length_nil]
    rw [if_pos hempty, if_pos hempty', h.redact]
  · have hempty' : ¬ fill f.read s' = [] := by
      rw [← List.length_eq_zero_iff, ← hlength, List.length_eq_zero_iff]
      exact hempty
    simp only [if_neg hempty, if_neg hempty', if_neg h.left.ne_nil, if_neg h.right.ne_nil,
      replaceAll_fill h.left.ne_nil hs le_rfl, replaceAll_fill h.right.ne_nil hs' le_rfl, h.redact]

/-- Of three letters one is neither of two. -/
theorem exists_letter (x y : Option UInt16) {a b c : UInt16} (hab : a ≠ b) (hac : a ≠ c)
    (hbc : b ≠ c) : ∃ u, (u = a ∨ u = b ∨ u = c) ∧ x ≠ some u ∧ y ≠ some u := by
  by_contra hnone
  simp only [not_exists, not_and, or_imp, forall_and, forall_eq] at hnone
  obtain ⟨ha, hb, hc⟩ := hnone
  by_cases hxa : x = some a
  · subst hxa
    have hyb := hb (by simpa using hab)
    have hyc := hc (by simpa using hac)
    rw [not_not] at hyb hyc
    rw [hyb] at hyc
    exact hbc (Option.some.inj hyc)
  · have hya := not_not.mp (ha hxa)
    subst hya
    have hxb : x = some b := by
      by_contra hxb
      exact hb hxb (by simpa using hab)
    have hxc : x = some c := by
      by_contra hxc
      exact hc hxc (by simpa using hac)
    rw [hxb] at hxc
    exact hbc (Option.some.inj hxc)

/-- A secret of four times `a` and then only one other letter. -/
def runOf (c : UInt16) (k : ℕ) : Text := List.replicate 4 97 ++ List.replicate k c

theorem secret_runOf {c : UInt16} {k : ℕ} (hc : isTrimmed c = false) (hk : 9 ≤ k) :
    Secret (runOf c k) := by
  constructor
  · rw [runOf, List.length_append, List.length_replicate, List.length_replicate]
    omega
  · apply trim_eq_self
    intro u hu
    rw [runOf, List.mem_append, List.mem_replicate, List.mem_replicate] at hu
    rcases hu with ⟨-, rfl⟩ | ⟨-, rfl⟩
    · decide
    · exact hc

theorem sameHead_runOf {c d : UInt16} {k : ℕ} (hc : isTrimmed c = false)
    (hd : isTrimmed d = false) (hk : 9 ≤ k) : SameHead (runOf c k) (runOf d k) :=
  ⟨secret_runOf hc hk, secret_runOf hd hk, by simp [runOf], by simp [runOf]⟩

theorem runOf_ne {c d : UInt16} (h : c ≠ d) {k : ℕ} (hk : 9 ≤ k) : runOf c k ≠ runOf d k := by
  intro heq
  obtain ⟨j, rfl⟩ : ∃ j, k = j + 1 := ⟨k - 1, by omega⟩
  have := List.append_cancel_left heq
  rw [List.replicate_succ, List.replicate_succ, List.cons.injEq] at this
  exact h this.1

/-- A long run stands only where it has been put. -/
theorem onlyThere_runOf {c : UInt16} (hc : c ≠ 97) {k : ℕ} {t : Template UInt16}
    (hk : literal t ≤ k) : OnlyThere (runOf c k) t := by
  induction t with
  | nil => trivial
  | cons p t ih =>
    cases p with
    | none => exact ih hk
    | some l =>
      rw [literal_some] at hk
      refine ⟨fun q hq hne hprefix => ?_, ih (by omega)⟩
      have hq' := hq.length_le
      have hpos := List.length_pos_iff.mpr hne
      have hlength : (runOf c k).length = 4 + k := by
        rw [runOf, List.length_append, List.length_replicate, List.length_replicate]
      cases hhole : firstHole t with
      | none =>
        have hle := hprefix.length_le
        rw [List.length_append, length_fill_of_none hhole] at hle
        omega
      | some p =>
        obtain ⟨before, after, hbefore, heq⟩ := fill_of_firstHole hhole
        have hp := firstHole_le hhole
        rw [heq, ← List.append_assoc] at hprefix
        -- the last of the four letters falls into the run
        have hget := hprefix.getElem (i := (q ++ before).length + 3) (by
          rw [List.length_append]
          omega)
        rw [List.getElem_append_right (by omega), List.getElem_append_left (by
          rw [hlength]; omega)] at hget
        unfold runOf at hget
        rw [List.getElem_append_right (by rw [List.length_replicate, List.length_append]; omega),
          List.getElem_replicate, List.getElem_append_left (by
            rw [List.length_replicate]; omega), List.getElem_replicate] at hget
        exact hc hget

theorem fill_ne_nil {t : Template UInt16} {p : ℕ} (h : firstHole t = some p) {s : Text}
    (hs : s ≠ []) : fill t s ≠ [] := by
  obtain ⟨before, after, -, heq⟩ := fill_of_firstHole h
  rw [heq]
  simp [hs]

/-- Without a text in `Secret` the text of `Match` stays as it is. -/
theorem evidenceOf_plain {t : Text} (ht : t ≠ []) : evidenceOf (some t) none = some t := by
  unfold evidenceOf redactIn
  dsimp only
  rw [if_neg ht]
  rfl

theorem evidenceOf_other {t l : Text} (ht : t ≠ []) (hl : l ≠ []) : evidenceOf (some t) (some l) =
    some (replaceAll l ((redactSecret (some l)).getD (js "…")) t.length t) := by
  unfold evidenceOf redactIn
  dsimp only
  rw [if_neg ht, if_neg hl]
  rfl

/-- Two letters of which each can go on after the front of a secret. -/
structure Letters (c d : UInt16) : Prop where
  ne : c ≠ d
  left : c ≠ 97 ∧ isTrimmed c = false
  right : d ≠ 97 ∧ isTrimmed d = false

theorem Letters.sameHead {c d : UInt16} (h : Letters c d) {k : ℕ} (hk : 9 ≤ k) :
    SameHead (runOf c k) (runOf d k) := sameHead_runOf h.left.2 h.right.2 hk

/-- A secret that stands in `Match` alone is told apart by its letters. -/
theorem evidence_of_other {f : TextField} {p : ℕ} (hhole : firstHole f.read = some p)
    {σ : Option Text} (hne : ∀ l ∈ σ, l ≠ []) :
    ∃ c d, Letters c d ∧ ∀ k, 9 ≤ k → (σ.getD []).length ≤ k →
      evidenceOf (str (f.value (runOf c k))) σ ≠ evidenceOf (str (f.value (runOf d k))) σ := by
  obtain ⟨c, hc, hcx, hcy⟩ := exists_letter (σ.bind List.head?) (σ.bind List.getLast?)
    (a := 98) (b := 99) (c := 100) (by decide) (by decide) (by decide)
  obtain ⟨d, hd, hdx, hdy⟩ := exists_letter (σ.bind List.head?) (σ.bind List.getLast?)
    (a := 101) (b := 102) (c := 103) (by decide) (by decide) (by decide)
  have hcd : c ≠ d := by
    rcases hc with rfl | rfl | rfl <;> rcases hd with rfl | rfl | rfl <;> decide
  have hblankc : isTrimmed c = false := by rcases hc with rfl | rfl | rfl <;> decide
  have hblankd : isTrimmed d = false := by rcases hd with rfl | rfl | rfl <;> decide
  have hc' : c ≠ 97 := by rcases hc with rfl | rfl | rfl <;> decide
  have hd' : d ≠ 97 := by rcases hd with rfl | rfl | rfl <;> decide
  have hletters : Letters c d := ⟨hcd, ⟨hc', hblankc⟩, ⟨hd', hblankd⟩⟩
  refine ⟨c, d, hletters, fun k hk hσ => ?_⟩
  have hhead := hletters.sameHead hk
  rw [f.str_value hhead.left, f.str_value hhead.right, if_neg (fill_ne_nil hhole hhead.left.ne_nil),
    if_neg (fill_ne_nil hhole hhead.right.ne_nil)]
  intro hsame
  have hfill : fill f.read (runOf c k) ≠ fill f.read (runOf d k) := fun heq =>
    runOf_ne hcd hk (eq_of_fill hhole hhead.length heq)
  cases σ with
  | none =>
    rw [evidenceOf_plain (fill_ne_nil hhole hhead.left.ne_nil),
      evidenceOf_plain (fill_ne_nil hhole hhead.right.ne_nil)] at hsame
    exact hfill (Option.some.inj hsame)
  | some l =>
    have hl := hne l rfl
    rw [evidenceOf_other (fill_ne_nil hhole hhead.left.ne_nil) hl,
      evidenceOf_other (fill_ne_nil hhole hhead.right.ne_nil) hl, Option.some.injEq,
      length_fill f.read hhead.length] at hsame
    obtain ⟨before, after, -, heq⟩ := fill_of_firstHole hhole
    -- the run of the other letter follows what stands before it in both texts
    have hsplit (e : UInt16) : fill f.read (runOf e k) = (before ++ List.replicate 4 97) ++
        (List.replicate k e ++ fill after (runOf e k)) := by
      rw [heq, runOf]
      simp
    have hlength := length_fill f.read hhead.length
    rw [hsplit c, hsplit d] at hsame hlength
    obtain ⟨more, hmore⟩ := @replaceAll_run _ _ l ((redactSecret (some l)).getD (js "…"))
      (before ++ List.replicate 4 97) (fill after (runOf c k)) c hcx hcy hl _ k hσ hlength.le
    obtain ⟨more', hmore'⟩ := @replaceAll_run _ _ l ((redactSecret (some l)).getD (js "…"))
      (before ++ List.replicate 4 97) (fill after (runOf d k)) d hdx hdy hl _ k hσ le_rfl
    rw [hmore, hmore'] at hsame
    have := List.append_cancel_left hsame
    rw [List.cons.injEq] at this
    exact hcd this.1

theorem leak_eq {t : LeakTemplate} (hguarded : t.Guarded) {s s' : Text} (h : SameHead s s')
    (hs : OnlyThere s t.found.read) (hs' : OnlyThere s' t.found.read) :
    gitleaksFinding (t.item s) = gitleaksFinding (t.item s') := by
  rw [gitleaksFinding_eq_iff]
  rcases hguarded with hinstead | hnone
  · rw [hinstead, Option.getD_none, Option.getD_none, str_secret h.left, str_secret h.right]
    exact evidence_of_own h hs hs'
  · cases hinstead : t.instead with
    | none =>
      rw [Option.getD_none, Option.getD_none, str_secret h.left, str_secret h.right]
      exact evidence_of_own h hs hs'
    | some v =>
      rw [t.found.str_value h.left, t.found.str_value h.right, fill_of_firstHole_none hnone s s']
      rfl

/-- What an item without a guard gives tells two long secrets apart. -/
theorem leak_ne {t : LeakTemplate} (hguarded : ¬ t.Guarded) :
    ∃ c d bound, Letters c d ∧ ∀ k, 9 ≤ k → bound ≤ k →
      gitleaksFinding (t.item (runOf c k)) ≠ gitleaksFinding (t.item (runOf d k)) := by
  unfold LeakTemplate.Guarded at hguarded
  rw [not_or] at hguarded
  obtain ⟨v, hv⟩ := Option.ne_none_iff_exists'.mp hguarded.1
  obtain ⟨p, hp⟩ := Option.ne_none_iff_exists'.mp hguarded.2
  obtain ⟨c, d, hletters, hne⟩ :=
    @evidence_of_other t.found p hp (str v) fun l hl => str_ne_nil hl
  refine ⟨c, d, ((str v).getD []).length, hletters, fun k hk hbound => ?_⟩
  rw [ne_eq, gitleaksFinding_eq_iff, hv]
  exact hne k hk hbound

/-! ## Results -/

/-- The title of a result without a short description. -/
def titleOf (message : Option Text) (ruleId : Text) : Text := (clip message 200).getD ruleId

theorem firstCwe_texts (tags : List Text) : ∃ cwe, firstCwe (tags.map .str) = .ok cwe := by
  induction tags with
  | nil => exact ⟨none, rfl⟩
  | cons t tags ih =>
    obtain ⟨cwe, hcwe⟩ := ih
    rw [List.map_cons, firstCwe]
    dsimp only [Value.toText, bind, Except.bind]
    cases hds : (t.tails.filterMap cweDigits).head? with
    | some ds => exact ⟨some (js "CWE-" ++ ds), rfl⟩
    | none =>
      dsimp only
      rw [hcwe]
      split_ifs
      · exact ⟨_, rfl⟩
      · exact ⟨_, rfl⟩

theorem cweOf_texts (tags : List Text) : ∃ cwe, cweOf (tags.map .str) = .ok cwe := by
  have hspread : spread (tags.map .str) = tags.map .str := by
    induction tags with
    | nil => rfl
    | cons t tags ih =>
      unfold spread at ih ⊢
      rw [List.map_cons, List.flatMap_cons, ih]
      rfl
  unfold cweOf
  rw [hspread]
  exact firstCwe_texts tags

section Results

variable (upper : Text → Text)

/-- What two versions of a result have in common. -/
theorem ResultTemplate.rule_eq (t : ResultTemplate) (s s' : Text) :
    resultRuleId t.run (t.item s) = resultRuleId t.run (t.item s') := by
  unfold resultRuleId
  rw [t.rest.prop s s' "ruleId" (by decide), t.rest.prop s s' "ruleIndex" (by decide)]

theorem sarifFinding_eq_iff (t : ResultTemplate) (s s' : Text) :
    sarifFinding upper t.run (t.item s) = sarifFinding upper t.run (t.item s') ↔
      (t.shortText s).getD (titleOf (str (t.message.value s))
          (resultRuleId t.run (t.item s))) =
        (t.shortText s').getD (titleOf (str (t.message.value s'))
          (resultRuleId t.run (t.item s'))) := by
  obtain ⟨cwe, hcwe⟩ := cweOf_texts t.tags
  have hlevel := t.rest.prop s s' "level" (by decide)
  have hprint := t.rest.prop s s' "partialFingerprints" (by decide)
  have hor (a b : Option Text) (c : Text) : (a.or b).getD c = a.getD (b.getD c) := by
    cases a <;> rfl
  have hbind {α β : Type} (a : α) (f : α → Except Exn β) : (Except.ok a >>= f) = f a := rfl
  have hpure {α : Type} (a : α) : (pure a : Except Exn α) = .ok a := rfl
  unfold sarifFinding ResultTemplate.shortText titleOf resultProperties resultRule
  simp only [t.readTags, t.readMessage, t.ofSecret, t.location s s', t.rule_eq s s', hlevel, hprint,
    hbind, hcwe, hor, hpure, Except.ok.injEq, NormalizedFinding.mk.injEq, if_true, true_and,
    and_true]

theorem ResultTemplate.shortText_eq (t : ResultTemplate) (s s' : Text) :
    t.shortText s = t.shortText s' := by
  unfold ResultTemplate.shortText resultRule
  rw [t.rule_eq s s']

end Results

/-- What the title takes of two messages, where the secret stands behind it or not at all. -/
theorem clip_fill_eq {t : Template UInt16} (h : ∀ p ∈ firstHole t, 196 ≤ p) {s s' : Text}
    (hhead : SameHead s s') : clip (some (fill t s)) 200 = clip (some (fill t s')) 200 := by
  cases hhole : firstHole t with
  | none => rw [fill_of_firstHole_none hhole s s']
  | some p =>
    have hp := h p hhole
    obtain ⟨before, after, rfl, heq⟩ := fill_of_firstHole hhole
    have hlength := length_fill t hhead.length
    have hlong : 200 < (fill t s).length := by
      have := hhead.left.long
      rw [heq, List.length_append, List.length_append]
      omega
    -- of the secret at most four characters are left
    have htake (l : Text) (hl : 12 < l.length) :
        (fill t l).take 200 = before.take 200 ++ (l.take 4).take (200 - before.length) := by
      rw [heq, List.take_append, List.take_append_of_le_length (by omega), List.take_take,
        Nat.min_eq_left (by omega)]
    unfold clip
    rw [Option.map_some, Option.map_some, if_pos hlong, if_pos (hlength ▸ hlong),
      htake s hhead.left.long, htake s' hhead.right.long, hhead.head]

/-- A fifth character of the secret in a title tells it. -/
theorem clip_fill_ne {t : Template UInt16} {p : ℕ} (hhole : firstHole t = some p) (hp : p < 196)
    {c d : UInt16} (hcd : c ≠ d) {k : ℕ} (hk : 9 ≤ k) :
    clip (some (fill t (runOf c k))) 200 ≠ clip (some (fill t (runOf d k))) 200 := by
  obtain ⟨before, after, rfl, heq⟩ := fill_of_firstHole hhole
  have hlength : (fill t (runOf c k)).length = (fill t (runOf d k)).length :=
    length_fill t (by simp [runOf])
  obtain ⟨j, rfl⟩ : ∃ j, k = j + 1 := ⟨k - 1, by omega⟩
  have hat (e : UInt16) : (fill t (runOf e (j + 1)))[before.length + 4]? = some e := by
    rw [heq, List.getElem?_append_right (by omega), runOf]
    simp [List.replicate_succ]
  have hne : fill t (runOf c (j + 1)) ≠ fill t (runOf d (j + 1)) := by
    intro hsame
    have := hat c
    rw [hsame, hat d] at this
    exact hcd (Option.some.inj this).symm
  unfold clip
  rw [Option.map_some, Option.map_some, hlength]
  split_ifs with hlong
  · intro hsame
    have htake := List.append_cancel_right (Option.some.inj hsame)
    have := congrArg (fun l => l[before.length + 4]?) htake
    simp only [List.getElem?_take, if_pos (show before.length + 4 < 200 by omega), hat] at this
    exact hcd (Option.some.inj this)
  · exact fun hsame => hne (Option.some.inj hsame)

/-- The title of a result without a short description. -/
theorem title_eq_iff (t : ResultTemplate) {s s' : Text} (h : SameHead s s') :
    titleOf (str (t.message.value s)) (resultRuleId t.run (t.item s)) =
        titleOf (str (t.message.value s')) (resultRuleId t.run (t.item s')) ↔
      clip (some (fill t.message.read s)) 200 = clip (some (fill t.message.read s')) 200 := by
  have hlength := length_fill t.message.read h.length
  unfold titleOf
  rw [t.message.str_value h.left, t.message.str_value h.right, t.rule_eq s s']
  by_cases hempty : fill t.message.read s = []
  · have hempty' : fill t.message.read s' = [] := by
      rw [← List.length_eq_zero_iff, ← hlength, hempty, List.length_nil]
    rw [if_pos hempty, if_pos hempty', hempty, hempty']
    exact iff_of_true rfl rfl
  · have hempty' : ¬ fill t.message.read s' = [] := by
      rw [← List.length_eq_zero_iff, ← hlength, List.length_eq_zero_iff]
      exact hempty
    rw [if_neg hempty, if_neg hempty']
    unfold clip
    rw [Option.map_some, Option.map_some, Option.getD_some, Option.getD_some, Option.some.injEq]

/-- The finding of a result is one of two versions where the title is. -/
theorem result_eq_iff (upper : Text → Text) (t : ResultTemplate) {s s' : Text}
    (h : SameHead s s') :
    sarifFinding upper t.run (t.item s) = sarifFinding upper t.run (t.item s') ↔
      (t.shortText []).isSome = true ∨
        clip (some (fill t.message.read s)) 200 = clip (some (fill t.message.read s')) 200 := by
  rw [sarifFinding_eq_iff, t.shortText_eq s [], t.shortText_eq s' []]
  cases t.shortText [] with
  | some short => simp
  | none =>
    rw [Option.getD_none, Option.getD_none, title_eq_iff t h]
    simp

theorem result_eq (upper : Text → Text) {t : ResultTemplate} (hguarded : t.Guarded) {s s' : Text}
    (h : SameHead s s') :
    sarifFinding upper t.run (t.item s) = sarifFinding upper t.run (t.item s') :=
  (result_eq_iff upper t h).mpr (hguarded.imp_right fun hbehind => clip_fill_eq hbehind h)

/-- What a result without a guard gives tells two secrets apart. -/
theorem result_ne (upper : Text → Text) {t : ResultTemplate} (hguarded : ¬ t.Guarded)
    {c d : UInt16} (hletters : Letters c d) {k : ℕ} (hk : 9 ≤ k) :
    sarifFinding upper t.run (t.item (runOf c k)) ≠
      sarifFinding upper t.run (t.item (runOf d k)) := by
  unfold ResultTemplate.Guarded at hguarded
  push Not at hguarded
  obtain ⟨hshort, p, hp, hlt⟩ := hguarded
  rw [ne_eq, result_eq_iff upper t (hletters.sameHead hk), not_or]
  exact ⟨hshort, clip_fill_ne hp hlt hletters.ne hk⟩

/-! ## Trivy -/

/-- Nothing of what surrounds a secret is read. -/
theorem trivy_eq (t : TrivyTemplate) (s s' : Text) :
    trivySecretFinding t.target (t.item s) = trivySecretFinding t.target (t.item s') := by
  unfold trivySecretFinding
  rw [t.rest.prop s s' "RuleID" (by decide), t.rest.prop s s' "Title" (by decide),
    t.rest.prop s s' "StartLine" (by decide)]

/-! ## Files -/

section Files

variable (upper : Text → Text)

/-- The findings of two versions of a guarded object are the same. -/
theorem version_eq {o : Holder} (hguarded : o.Guarded) {s s' : Text} (h : SameHead s s')
    (hs : o.Found s) (hs' : o.Found s') :
    (o.version s).finding upper = (o.version s').finding upper := by
  cases o with
  | plain o => rfl
  | leak t => exact congrArg Except.ok (leak_eq hguarded h hs hs')
  | result t => exact result_eq upper hguarded h
  | trivy t => exact congrArg Except.ok (trivy_eq t s s')

/-- An object without a guard tells two long secrets apart. -/
theorem version_ne {o : Holder} (hguarded : ¬ o.Guarded) :
    ∃ c d bound, Letters c d ∧ ∀ k, 9 ≤ k → bound ≤ k →
      (o.version (runOf c k)).finding upper ≠ (o.version (runOf d k)).finding upper := by
  cases o with
  | plain o => exact absurd trivial hguarded
  | trivy t => exact absurd trivial hguarded
  | leak t =>
    obtain ⟨c, d, bound, hletters, hne⟩ := leak_ne hguarded
    exact ⟨c, d, bound, hletters, fun k hk hbound hsame => hne k hk hbound (Except.ok.inj hsame)⟩
  | result t =>
    have hletters : Letters 98 99 := by constructor <;> decide
    exact ⟨98, 99, 0, hletters, fun k hk _ => result_ne upper hguarded hletters hk⟩

theorem version_capped (o : Holder) (s s' : Text) :
    (o.version s).capped = (o.version s').capped := by
  cases o <;> rfl

/-- The objects that a reader takes, which has taken some. -/
def taken : ℕ → List Holder → List Holder
  | _, [] => []
  | n, o :: hs =>
    if (o.version []).capped && maxFindings ≤ n then taken n hs else o :: taken (n + 1) hs

theorem mem_taken {n : ℕ} {o : Holder} {hs : List Holder} (h : o ∈ taken n hs) : o ∈ hs := by
  induction hs generalizing n with
  | nil => exact absurd h List.not_mem_nil
  | cons o' hs ih =>
    unfold taken at h
    split_ifs at h
    · exact List.mem_cons_of_mem o' (ih h)
    · rcases List.mem_cons.mp h with rfl | h
      · exact List.mem_cons_self
      · exact List.mem_cons_of_mem o' (ih h)

/-- The findings of a file are those of the objects that the reader takes. -/
theorem collect_taken {s : Text} {hs : List Holder} {found result : List NormalizedFinding}
    (h : collect upper (hs.map (·.version s)) found = .ok result) :
    ∃ news, result = found ++ news ∧
      Complete upper ((taken found.length hs).map (·.version s)) news := by
  induction hs generalizing found with
  | nil =>
    cases h
    exact ⟨[], by simp, .nil⟩
  | cons o hs ih =>
    rw [List.map_cons, collect, version_capped o s []] at h
    unfold taken
    split_ifs at h ⊢ with hfull
    · exact ih h
    · cases hf : (o.version s).finding upper with
      | error e => rw [hf] at h; cases h
      | ok f =>
        rw [hf] at h
        obtain ⟨news, hnews, hcomplete⟩ := ih h
        rw [List.length_append, List.length_singleton] at hcomplete
        exact ⟨f :: news, by rw [hnews, List.append_assoc]; rfl, .cons hf hcomplete⟩

/-- A scan file with holes for the secret. -/
structure FileTemplate where
  file : Text → ScanFile
  holders : List Holder
  objects : ∀ s, (file s).objects = holders.map (·.version s)

/-- The secret stands in the file in its own places only. -/
def FileTemplate.Found (t : FileTemplate) (s : Text) : Prop := ∀ o ∈ t.holders, o.Found s

theorem FileTemplate.findings {t : FileTemplate} {s : Text} {scan : ParsedScan}
    (h : parseFile upper (t.file s) = .ok scan) :
    Complete upper ((taken 0 t.holders).map (·.version s)) scan.findings := by
  have hcollect := parseFile_findings h
  rw [t.objects] at hcollect
  obtain ⟨news, hnews, hcomplete⟩ := collect_taken upper hcollect
  rw [List.nil_append] at hnews
  rwa [hnews]

/-- Secrets can be so long that none of the texts around them reaches over one. -/
theorem exists_bound (hs : List Holder) : ∃ bound, ∀ o ∈ hs, literal o.read ≤ bound := by
  induction hs with
  | nil => exact ⟨0, by simp⟩
  | cons o hs ih =>
    obtain ⟨bound, hbound⟩ := ih
    refine ⟨max (literal o.read) bound, List.forall_mem_cons.mpr ⟨le_max_left _ _, ?_⟩⟩
    exact fun o' ho' => (hbound o' ho').trans (le_max_right _ _)

theorem FileTemplate.found_runOf {t : FileTemplate} {c : UInt16} (hc : c ≠ 97) {bound k : ℕ}
    (hbound : ∀ o ∈ t.holders, literal o.read ≤ bound) (hk : bound ≤ k) : t.Found (runOf c k) :=
  fun o ho => onlyThere_runOf hc ((hbound o ho).trans hk)

/-- Two complete lists of findings of one list of objects are the same exactly where each
object has one finding in both. -/
theorem complete_eq_iff {s s' : Text} {hs : List Holder} {fs fs' : List NormalizedFinding}
    (h : Complete upper (hs.map (·.version s)) fs)
    (h' : Complete upper (hs.map (·.version s')) fs') :
    fs = fs' ↔ ∀ o ∈ hs, (o.version s).finding upper = (o.version s').finding upper := by
  induction hs generalizing fs fs' with
  | nil =>
    cases h
    cases h'
    simp
  | cons o hs ih =>
    obtain ⟨f, fs, hf, hrest, rfl⟩ := List.forall₂_cons_left_iff.mp h
    obtain ⟨f', fs', hf', hrest', rfl⟩ := List.forall₂_cons_left_iff.mp h'
    rw [List.cons.injEq, ih hrest hrest', List.forall_mem_cons, hf, hf', Except.ok.injEq]

/-- Two versions of a file with two secrets of one length and one front have the same
findings exactly where the reader takes guarded objects only. -/
theorem parseFile_hides (t : FileTemplate)
    (hread : ∀ s, Secret s → ∃ scan, parseFile upper (t.file s) = .ok scan) :
    (∀ s s' scan scan', SameHead s s' → t.Found s → t.Found s' →
      parseFile upper (t.file s) = .ok scan → parseFile upper (t.file s') = .ok scan' →
        scan.findings = scan'.findings) ↔
    ∀ o ∈ taken 0 t.holders, o.Guarded := by
  constructor
  · intro hsame o ho
    by_contra hguarded
    obtain ⟨c, d, bound, hletters, hne⟩ := version_ne upper hguarded
    obtain ⟨reach, hreach⟩ := exists_bound t.holders
    obtain ⟨k, hk, hbound, hk'⟩ : ∃ k, 9 ≤ k ∧ bound ≤ k ∧ reach ≤ k :=
      ⟨9 + bound + reach, by omega, by omega, by omega⟩
    have h := hletters.sameHead hk
    obtain ⟨scan, hscan⟩ := hread _ h.left
    obtain ⟨scan', hscan'⟩ := hread _ h.right
    have hfound := t.found_runOf hletters.left.1 hreach hk'
    have hfound' := t.found_runOf hletters.right.1 hreach hk'
    have heq := hsame _ _ scan scan' h hfound hfound' hscan hscan'
    rw [complete_eq_iff upper (FileTemplate.findings upper hscan)
      (FileTemplate.findings upper hscan')] at heq
    exact hne k hk hbound (heq o ho)
  · intro hguarded s s' scan scan' h hs hs' hscan hscan'
    rw [complete_eq_iff upper (FileTemplate.findings upper hscan)
      (FileTemplate.findings upper hscan')]
    intro o ho
    have hmem := mem_taken ho
    exact version_eq upper (hguarded o ho) h (hs o hmem) (hs' o hmem)

end Files

/-! ## Leaks with and without a name -/

/-- An item of a rule with some fields that hold the secret only. -/
def leakItem (ks : List String) (s : Text) : Value :=
  .obj ((js "RuleID", .str (js "key")) :: ks.map fun k => (js k, .str s))

theorem agreeBut_leakItem (ks : List String) : AgreeBut ks (leakItem ks) := by
  intro s s' k hk
  have hrest : lookup k (ks.map fun k => (js k, Value.str s)) =
      lookup k (ks.map fun k => (js k, Value.str s')) := by
    induction ks with
    | nil => rfl
    | cons k' ks ih =>
      rw [List.map_cons, List.mem_cons, not_or] at hk
      rw [List.map_cons, List.map_cons, lookup, lookup, if_neg (Ne.symm hk.1),
        if_neg (Ne.symm hk.1)]
      exact ih hk.2
  unfold leakItem
  rw [Value.get_obj, Value.get_obj, lookup, lookup, hrest]

/-- A leak whose secret stands in `Secret` and in `Match`. -/
def namedLeak : LeakTemplate where
  item := leakItem ["Secret", "Match"]
  instead := none
  found := .text [none]
  secret _ := by
    unfold leakItem prop
    rw [Value.get_obj, lookup, if_neg (by decide)]
    simp [lookup]
  matched s := by
    unfold leakItem prop
    rw [Value.get_obj, lookup, if_neg (by decide), List.map_cons, lookup, if_neg (by decide)]
    simp [lookup, TextField.value]
  rest := agreeBut_leakItem _

/-- A file of gitleaks with one leak. -/
def oneLeak (t : LeakTemplate) : FileTemplate where
  file s := .gitleaks [t.item s]
  holders := [.leak t]
  objects _ := rfl

/-- Two keys of one length and one front. -/
def twoKeys : Text × Text := (js "AKIA1234567890ABCDEF", js "AKIAzyxwvutsrqponmlk")

theorem sameHead_twoKeys : SameHead twoKeys.1 twoKeys.2 := by
  refine ⟨⟨?_, ?_⟩, ⟨?_, ?_⟩, ?_, ?_⟩ <;> decide

/-- A file whose leak names its secret gives one finding for both keys. -/
theorem namedLeak_hides :
    (parseGitleaks [namedLeak.item twoKeys.1]).findings =
      (parseGitleaks [namedLeak.item twoKeys.2]).findings := by
  have hfound (s : Text) : (oneLeak namedLeak).Found s := by
    intro o ho
    rw [List.mem_singleton.mp ho]
    trivial
  refine (parseFile_hides id (oneLeak namedLeak) fun s _ => ⟨_, rfl⟩).mpr ?_ twoKeys.1 twoKeys.2 _ _
    sameHead_twoKeys (hfound _) (hfound _) rfl rfl
  intro o ho
  rw [List.mem_singleton.mp (mem_taken ho)]
  exact .inl rfl

/-- A file of one leak without the field `Secret`. -/
def namelessText (s : Text) : Text :=
  js "[\x7b\"RuleID\":\"key\",\"Match\":\"" ++ s ++ js "\"\x7d]"

/-- A leak that does not name its secret shows the whole of it. -/
theorem namelessLeak_shows :
    SameHead twoKeys.1 twoKeys.2 ∧
    (parseScanFile id (namelessText twoKeys.1) []).map (·.map (·.findings.map (·.evidence))) =
      .ok (.ok [some twoKeys.1]) ∧
    (parseScanFile id (namelessText twoKeys.2) []).map (·.map (·.findings.map (·.evidence))) =
      .ok (.ok [some twoKeys.2]) ∧
    twoKeys.1 ≠ twoKeys.2 := by
  refine ⟨sameHead_twoKeys, ?_, ?_, ?_⟩
  · decide +kernel
  · decide +kernel
  · decide

end Klick.Security
