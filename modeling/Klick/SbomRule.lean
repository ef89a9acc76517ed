-- What a bill of materials that passes has: the rule over all components of the document,
-- and where the check, which reads some of them and rounds their shares, decides
-- otherwise.
import Klick.NormalForm
import Klick.SbomCheck

namespace Klick.Sbom

open Js Security

/-! ## Shares -/

/-- Of half a percent below 90 rounding makes 90. -/
theorem fl_share_bounds : (895 : ℚ) / 10 ≤ fl (fl (895 / 1000) * 100) ∧
    fl (fl (895 / 1000 - 1 / 200000000) * 100) < 895 / 10 := by decide +kernel

theorem le_mathRound {z : ℤ} {q : ℚ} : z ≤ mathRound q ↔ (z : ℚ) ≤ q + 1 / 2 := by
  unfold mathRound
  exact Int.le_floor

/-- A percentage of at least 90 is a share of at least 89.5 %. -/
theorem pct_ge_iff {n total : ℕ} (hpos : 0 < total) (hmax : total ≤ maxComponents) :
    90 ≤ pct n total ↔ 895 * total ≤ 1000 * n := by
  obtain ⟨hlow, hhigh⟩ := fl_share_bounds
  have htotal : (0 : ℚ) < total := by exact_mod_cast hpos
  unfold pct
  rw [if_neg (by omega), le_mathRound]
  constructor
  · intro h
    by_contra hlt
    have hshare : (n : ℚ) / total ≤ 895 / 1000 - 1 / 200000000 := by
      have hnat : 1000 * n + 1 ≤ 895 * total := by omega
      have hcast : (1000 : ℚ) * n + 1 ≤ 895 * total := by exact_mod_cast hnat
      have hsmall : (total : ℚ) ≤ 200000 := by exact_mod_cast hmax
      rw [div_le_iff₀ htotal]
      linarith
    have hfl := fl_mono (mul_le_mul_of_nonneg_right (fl_mono hshare) (by norm_num : (0 : ℚ) ≤ 100))
    push_cast at h
    linarith
  · intro h
    have hcast : (895 : ℚ) * total ≤ 1000 * n := by exact_mod_cast h
    have hshare : (895 : ℚ) / 1000 ≤ n / total := by
      rw [le_div_iff₀ htotal]
      linarith
    have hfl := fl_mono (mul_le_mul_of_nonneg_right (fl_mono hshare) (by norm_num : (0 : ℚ) ≤ 100))
    push_cast
    linarith

/-! ## The components of a document -/

mutual
/-- The components that a listed value stands for, each with its depth. -/
def foundIn : Value → ℕ → List (ℕ × SbomComponent)
  | .obj fields, depth => (depth, cycloneComponent (.obj fields)) :: foundUnder fields (depth + 1)
  | _, _ => []
/-- The components below a component: those of its first field of that name. -/
def foundUnder : List (Text × Value) → ℕ → List (ℕ × SbomComponent)
  | [], _ => []
  | (k, v) :: fields, depth =>
    if k = js "components" then foundListed v depth else foundUnder fields depth
def foundListed : Value → ℕ → List (ℕ × SbomComponent)
  | .arr items, depth => foundOf items depth
  | _, _ => []
def foundOf : List Value → ℕ → List (ℕ × SbomComponent)
  | [], _ => []
  | v :: vs, depth => foundIn v depth ++ foundOf vs depth
end

theorem foundUnder_eq (fields : List (Text × Value)) (depth : ℕ) :
    foundUnder fields depth = foundOf (arr (prop (.obj fields) "components")) depth := by
  unfold prop
  rw [Value.get_obj]
  induction fields with
  | nil => simp [foundUnder, lookup, arr, foundOf]
  | cons f fields ih =>
    obtain ⟨k, v⟩ := f
    unfold foundUnder lookup
    by_cases hk : k = js "components"
    · rw [if_pos hk, if_pos hk]
      cases v <;> simp [foundListed, arr, foundOf]
    · rw [if_neg hk, if_neg hk]
      exact ih

/-- A listed value stands for its component and those below it. -/
theorem foundIn_eq (v : Value) (depth : ℕ) :
    foundIn v depth = if isObj v then
      (depth, cycloneComponent v) :: foundOf (arr (prop v "components")) (depth + 1) else [] := by
  cases v with
  | obj fields => simp [foundIn, isObj, foundUnder_eq]
  | _ => simp [foundIn, isObj]

mutual
theorem depth_le_foundIn : ∀ (v : Value) (depth : ℕ), ∀ p ∈ foundIn v depth, depth ≤ p.1
  | .obj fields, depth => by
    intro p hp
    rw [foundIn, List.mem_cons] at hp
    rcases hp with rfl | hp
    · exact le_rfl
    · exact (Nat.le_succ depth).trans (depth_le_foundUnder fields (depth + 1) p hp)
  | .undefined, _ | .null, _ | .bool _, _ | .num _, _ | .str _, _ | .arr _, _ => by
    simp [foundIn]
theorem depth_le_foundUnder :
    ∀ (fields : List (Text × Value)) (depth : ℕ), ∀ p ∈ foundUnder fields depth, depth ≤ p.1
  | [], _ => by simp [foundUnder]
  | (k, v) :: fields, depth => by
    intro p hp
    rw [foundUnder] at hp
    split_ifs at hp
    · exact depth_le_foundListed v depth p hp
    · exact depth_le_foundUnder fields depth p hp
theorem depth_le_foundListed : ∀ (v : Value) (depth : ℕ), ∀ p ∈ foundListed v depth, depth ≤ p.1
  | .arr items, depth => by
    rw [foundListed]
    exact depth_le_foundOf items depth
  | .undefined, _ | .null, _ | .bool _, _ | .num _, _ | .str _, _ | .obj _, _ => by
    simp [foundListed]
theorem depth_le_foundOf : ∀ (vs : List Value) (depth : ℕ), ∀ p ∈ foundOf vs depth, depth ≤ p.1
  | [], _ => by simp [foundOf]
  | v :: vs, depth => by
    intro p hp
    rw [foundOf, List.mem_append] at hp
    rcases hp with hp | hp
    · exact depth_le_foundIn v depth p hp
    · exact depth_le_foundOf vs depth p hp
end

/-- The components down to a number of levels. -/
def within (levels : ℕ) (found : List (ℕ × SbomComponent)) : List SbomComponent :=
  (found.filter (·.1 < levels)).map (·.2)

theorem within_append (levels : ℕ) (found found' : List (ℕ × SbomComponent)) :
    within levels (found ++ found') = within levels found ++ within levels found' := by
  simp [within]

theorem take_append_take {α : Type} (n : ℕ) (as bs : List α) :
    (as.take n ++ bs).take n = (as ++ bs).take n := by
  by_cases h : n ≤ as.length
  · rw [List.take_append_of_le_length h, List.take_append_of_le_length (by simp [h]), List.take_take,
      min_self]
  · rw [List.take_of_length_le (by omega : as.length ≤ n)]

/-- The recursion takes the components in order, so many levels deep, until the list is full. -/
theorem walk_eq (levels depth : ℕ) (list : List Value) (out : List SbomComponent)
    (hout : out.length ≤ maxComponents) :
    walk levels list out =
      (out ++ within (depth + levels) (foundOf list depth)).take maxComponents := by
  induction levels generalizing depth list out with
  | zero =>
    have hnone : within (depth + 0) (foundOf list depth) = [] := by
      unfold within
      rw [List.map_eq_nil_iff, List.filter_eq_nil_iff]
      intro p hp
      have := depth_le_foundOf list depth p hp
      simpa using this
    rw [hnone, List.append_nil, List.take_of_length_le hout]
    rfl
  | succ levels ihl =>
    unfold walk
    induction list generalizing out with
    | nil => simp [foundOf, within, List.take_of_length_le hout]
    | cons c list ih =>
      rw [List.foldl_cons, foundOf, within_append, foundIn_eq]
      by_cases hfull : maxComponents ≤ out.length
      · rw [if_pos hfull, ih out hout, List.take_append_of_le_length hfull,
          List.take_append_of_le_length hfull]
      · rw [if_neg hfull]
        by_cases hobj : isObj c = true
        · rw [if_pos hobj, if_pos hobj,
            ihl (depth + 1) _ _ (by rw [List.length_append, List.length_singleton]; omega),
            ih _ (by simp), take_append_take]
          have hfirst : depth < depth + (levels + 1) := by omega
          have hlevels : depth + 1 + levels = depth + (levels + 1) := by omega
          simp [within, hfirst, hlevels]
        · rw [if_neg hobj, if_neg hobj, ih out hout]
          simp [within]

/-- The component that a package stands for. -/
def packageComponent (p : Value) : SbomComponent :=
  spdxComponent p (match identifies (arr (prop p "externalRefs")) with
    | .ok b => b
    | .error _ => false)

/-- The packages are taken in order until the list is full. -/
theorem packages_eq {ids : List Text} {ps : List Value} {primary primary' : Option Text}
    {out cs : List SbomComponent} (hout : out.length ≤ maxComponents)
    (h : packages ids ps primary out = .ok (primary', cs)) :
    cs = (out ++ (ps.filter isObj).map packageComponent).take maxComponents := by
  induction ps generalizing primary out with
  | nil =>
    cases h
    simp [List.take_of_length_le hout]
  | cons p ps ih =>
    unfold packages at h
    split_ifs at h with hfull hobj
    · cases h
      rw [List.take_append_of_le_length hfull, List.take_of_length_le hout]
    · dsimp only at h
      cases hid : identifies (arr (prop p "externalRefs")) with
      | error e => rw [hid] at h; cases h
      | ok identifier =>
        rw [hid] at h
        have hcomponent : packageComponent p = spdxComponent p identifier := by
          unfold packageComponent
          rw [hid]
        rw [ih (by rw [List.length_append, List.length_singleton]; omega) h]
        simp [hobj, hcomponent]
    · rw [ih hout h]
      simp [hobj]

/-! ## The rule -/

/-- All components of a document, each with its depth. -/
def allFound (format : SbomFormat) (doc : Value) : List (ℕ × SbomComponent) :=
  match format with
  | .cyclonedx => foundOf (arr (prop doc "components")) 0
  | .spdx => ((arr (prop doc "packages")).filter isObj).map fun p => (0, packageComponent p)

def allComponents (format : SbomFormat) (doc : Value) : List SbomComponent :=
  (allFound format doc).map (·.2)

/-- The first components of a document, as far as they are not too deep. -/
def keptComponents (format : SbomFormat) (doc : Value) : List SbomComponent :=
  (within (maxDepth + 1) (allFound format doc)).take maxComponents

def creationTime (format : SbomFormat) (doc : Value) : Option Text :=
  match format with
  | .cyclonedx => cycloneCreated doc
  | .spdx => spdxCreated doc

/-- Whether the document states a dependency. -/
def statesDependency (format : SbomFormat) (doc : Value) : Bool :=
  match format with
  | .cyclonedx => cycloneDependencies doc
  | .spdx => spdxDependencies doc

/-- A share of the components, in thousandths, has a version, and an identifier. -/
def Shares (thousandths : ℕ) (cs : List SbomComponent) : Prop :=
  thousandths * cs.length ≤ 1000 * cs.countP (·.version) ∧
    thousandths * cs.length ≤ 1000 * cs.countP (·.identifier)

instance (k : ℕ) (cs : List SbomComponent) : Decidable (Shares k cs) :=
  inferInstanceAs (Decidable (_ ∧ _))

/-- What has to be there beside the shares: a component, a creation time, and with more
than one component a dependency. -/
def Complete (format : SbomFormat) (doc : Value) (cs : List SbomComponent) : Prop :=
  cs ≠ [] ∧ creationTime format doc ≠ none ∧ (1 < cs.length → statesDependency format doc = true)

/-- The rule for a list of components of the document. -/
def Meets (format : SbomFormat) (doc : Value) (cs : List SbomComponent) : Prop :=
  Complete format doc cs ∧ Shares 900 cs

/-- Only a share between 89.5 and 90 percent keeps the list from the rule. -/
def RoundsUp (format : SbomFormat) (doc : Value) (cs : List SbomComponent) : Prop :=
  Complete format doc cs ∧ Shares 895 cs ∧ ¬ Shares 900 cs

theorem noteIf_eq_nil {p : Bool} {note : Text} : noteIf p note = [] ↔ p = false := by
  cases p <;> simp [noteIf]

theorem checkSbom_ok (sbom : ParsedSbom) (now : Text) :
    (checkSbom sbom now).ok = (blocking sbom).isEmpty := rfl

/-- A parsed document is fine by its counts. -/
theorem blocking_eq_nil {sbom : ParsedSbom} (hmax : sbom.components.length ≤ maxComponents) :
    blocking sbom = [] ↔ (sbom.components ≠ [] ∧ sbom.generatedAt ≠ none ∧
      (1 < sbom.components.length → sbom.dependencies = true)) ∧ Shares 895 sbom.components := by
  unfold blocking Shares fieldsOf
  simp only [List.append_eq_nil_iff, noteIf_eq_nil, decide_eq_false_iff_not, Bool.and_eq_false_iff,
    Bool.not_eq_false', not_lt, Option.isNone_eq_false_iff, ← Option.ne_none_iff_isSome]
  by_cases hnil : sbom.components = []
  · simp [hnil]
  · have hpos : 0 < sbom.components.length := List.length_pos_iff.mpr hnil
    rw [pct_ge_iff hpos hmax, pct_ge_iff hpos hmax]
    constructor
    · rintro ⟨⟨⟨⟨-, hcreated⟩, hversion⟩, hidentifier⟩, hdeps⟩
      exact ⟨⟨hnil, hcreated, fun hone => hdeps.resolve_left (by omega)⟩,
        hversion.resolve_left (by omega), hidentifier.resolve_left (by omega)⟩
    · rintro ⟨⟨-, hcreated, hdeps⟩, hversion, hidentifier⟩
      refine ⟨⟨⟨⟨by omega, hcreated⟩, .inr hversion⟩, .inr hidentifier⟩, ?_⟩
      by_cases hone : 1 < sbom.components.length
      · exact .inr (hdeps hone)
      · exact .inl (by omega)

/-- A text is read as a document of one of the formats. -/
structure Reads (text : Text) (doc : Value) (sbom : ParsedSbom) : Prop where
  doc : parseJson text = .ok doc
  sbom : parseSbom text = .ok (.ok sbom)

/-- What the reader keeps of a document. -/
theorem Reads.kept {text : Text} {doc : Value} {sbom : ParsedSbom} (h : Reads text doc sbom) :
    sbom.components = keptComponents sbom.format doc ∧
      sbom.generatedAt = creationTime sbom.format doc ∧
      sbom.dependencies = statesDependency sbom.format doc := by
  have hparse := h.sbom
  unfold parseSbom at hparse
  rw [h.doc] at hparse
  unfold parseDocument at hparse
  dsimp only at hparse
  cases hformat : formatOf doc with
  | error e => rw [hformat] at hparse; cases hparse
  | ok format =>
    rw [hformat] at hparse
    cases format with
    | cyclonedx =>
      cases hparse
      refine ⟨?_, rfl, rfl⟩
      have hwalk := walk_eq (maxDepth + 1) 0 (arr (prop doc "components")) [] (Nat.zero_le _)
      simpa [keptComponents, allFound, parseCycloneDx] using hwalk
    | spdx =>
      dsimp only at hparse
      unfold parseSpdx at hparse
      cases hpackages : packages (describes doc) (arr (prop doc "packages")) none [] with
      | error e => rw [hpackages] at hparse; cases hparse
      | ok result =>
        obtain ⟨primary, out⟩ := result
        rw [hpackages] at hparse
        cases hparse
        refine ⟨?_, rfl, rfl⟩
        have hout := packages_eq (Nat.zero_le _) hpackages
        simpa [keptComponents, allFound, within, Function.comp_def, List.filter_map] using hout

theorem length_keptComponents (format : SbomFormat) (doc : Value) :
    (keptComponents format doc).length ≤ maxComponents := by
  unfold keptComponents
  rw [List.length_take]
  exact min_le_left _ _

/-- The summary is fine where the components kept meet the rule, or nearly. -/
theorem Reads.ok_iff {text : Text} {doc : Value} {sbom : ParsedSbom} (h : Reads text doc sbom)
    (now : Text) :
    (checkSbom sbom now).ok = true ↔ Complete sbom.format doc (keptComponents sbom.format doc) ∧
      Shares 895 (keptComponents sbom.format doc) := by
  obtain ⟨hkept, hcreated, hdeps⟩ := h.kept
  have hlength : sbom.components.length ≤ maxComponents := by
    rw [hkept]
    exact length_keptComponents _ _
  have hblocking := blocking_eq_nil hlength
  rw [hkept, hcreated, hdeps] at hblocking
  simpa [checkSbom, Complete, List.isEmpty_iff] using hblocking

theorem Shares.weaken {cs : List SbomComponent} (h : Shares 900 cs) : Shares 895 cs := by
  unfold Shares at h ⊢
  omega

theorem Reads.ok_iff_meets {text : Text} {doc : Value} {sbom : ParsedSbom}
    (h : Reads text doc sbom) (now : Text) :
    (checkSbom sbom now).ok = true ↔ Meets sbom.format doc (keptComponents sbom.format doc) ∨
      RoundsUp sbom.format doc (keptComponents sbom.format doc) := by
  rw [h.ok_iff now]
  unfold Meets RoundsUp
  constructor
  · rintro ⟨hcomplete, hshares⟩
    by_cases hexact : Shares 900 (keptComponents sbom.format doc)
    · exact .inl ⟨hcomplete, hexact⟩
    · exact .inr ⟨hcomplete, hshares, hexact⟩
  · rintro (⟨hcomplete, hexact⟩ | ⟨hcomplete, hshares, -⟩)
    · exact ⟨hcomplete, hexact.weaken⟩
    · exact ⟨hcomplete, hshares⟩

/-- Where the document is neither too deep nor too long all its components are kept. -/
theorem keptComponents_eq_all {format : SbomFormat} {doc : Value}
    (hdepth : ∀ p ∈ allFound format doc, p.1 ≤ maxDepth)
    (hlength : (allFound format doc).length ≤ maxComponents) :
    keptComponents format doc = allComponents format doc := by
  have hall : (allFound format doc).filter (·.1 < maxDepth + 1) = allFound format doc := by
    rw [List.filter_eq_self]
    intro p hp
    have := hdepth p hp
    exact decide_eq_true (by omega)
  unfold keptComponents within allComponents
  rw [hall, List.take_of_length_le (by rw [List.length_map]; exact hlength)]

/-! ## A field more -/

/-- A value that no field of a component is read from. -/
def Silent (v : Value) : Prop := str v = none ∧ isObj v = false ∧ arr v = []

/-- An object that says all that the first does, and maybe fields that are missing there. -/
structure Grown (c c' : Value) : Prop where
  isObj : isObj c = true
  isObj' : Security.isObj c' = true
  fields : ∀ k, k ≠ "components" → prop c' k = prop c k ∨ Silent (prop c k)

/-- A list of components of which some have got fields, at any depth. -/
inductive Completed (children : Value → List Value) : List Value → List Value → Prop where
  | nil : Completed children [] []
  | other {v : Value} {vs vs' : List Value} (h : isObj v = false)
      (rest : Completed children vs vs') : Completed children (v :: vs) (v :: vs')
  | component {c c' : Value} {vs vs' : List Value} (grown : Grown c c')
      (below : Completed children (children c) (children c'))
      (rest : Completed children vs vs') : Completed children (c :: vs) (c' :: vs')

/-- What the fields of one component tell, those of the other tell too. -/
structure Fuller (c c' : SbomComponent) : Prop where
  version : c.version = true → c'.version = true
  identifier : c.identifier = true → c'.identifier = true
  license : c.license = true → c'.license = true
  hash : c.hash = true → c'.hash = true
  supplier : c.supplier = true → c'.supplier = true

theorem Grown.str {c c' : Value} (h : Grown c c') {k : String} (hk : k ≠ "components")
    (hc : (Security.str (prop c k)).isSome = true) : (Security.str (prop c' k)).isSome = true := by
  rcases h.fields k hk with heq | hsilent
  · rwa [heq]
  · rw [hsilent.1] at hc
    cases hc

theorem Grown.strIn {c c' : Value} (h : Grown c c') {k : String} (hk : k ≠ "components")
    {l : String} (hc : (Security.strIn (prop c k) l).isSome = true) :
    (Security.strIn (prop c' k) l).isSome = true := by
  rcases h.fields k hk with heq | hsilent
  · rwa [heq]
  · unfold Security.strIn at hc
    rw [hsilent.2.1] at hc
    cases hc

theorem Grown.any {c c' : Value} (h : Grown c c') {k : String} (hk : k ≠ "components")
    {p : Value → Bool} (hc : (arr (prop c k)).any p = true) : (arr (prop c' k)).any p = true := by
  rcases h.fields k hk with heq | hsilent
  · rwa [heq]
  · rw [hsilent.2.2] at hc
    cases hc

theorem Grown.cyclone {c c' : Value} (h : Grown c c') :
    Fuller (cycloneComponent c) (cycloneComponent c') := by
  refine ⟨h.str (by decide), ?_, h.any (by decide), h.any (by decide), ?_⟩
  · simp only [cycloneComponent, Bool.or_eq_true]
    rintro ((hpurl | hcpe) | hswid)
    · exact .inl (.inl (h.str (by decide) hpurl))
    · exact .inl (.inr (h.str (by decide) hcpe))
    · exact .inr (h.strIn (by decide) hswid)
  · simp only [cycloneComponent, Bool.or_eq_true]
    rintro (((hsupplier | hauthor) | hpublisher) | hmanufacturer)
    · exact .inl (.inl (.inl (h.strIn (by decide) hsupplier)))
    · exact .inl (.inl (.inr (h.str (by decide) hauthor)))
    · exact .inl (.inr (h.str (by decide) hpublisher))
    · exact .inr (h.strIn (by decide) hmanufacturer)

theorem Grown.assertion {c c' : Value} (h : Grown c c') {k : String} (hk : k ≠ "components")
    (hc : (Sbom.assertion (prop c k)).isSome = true) :
    (Sbom.assertion (prop c' k)).isSome = true := by
  rcases h.fields k hk with heq | hsilent
  · rwa [heq]
  · unfold Sbom.assertion at hc
    rw [hsilent.1] at hc
    cases hc

theorem Grown.package {c c' : Value} (h : Grown c c') :
    Fuller (packageComponent c) (packageComponent c') := by
  refine ⟨h.str (by decide), ?_, ?_, h.any (by decide), ?_⟩
  · unfold packageComponent spdxComponent
    rcases h.fields "externalRefs" (by decide) with heq | hsilent
    · rw [heq]
      exact id
    · rw [hsilent.2.2]
      intro hfalse
      cases hfalse
  · simp only [packageComponent, spdxComponent, Bool.or_eq_true]
    exact Or.imp (h.assertion (by decide)) (h.assertion (by decide))
  · simp only [packageComponent, spdxComponent, Bool.or_eq_true]
    exact Or.imp (h.assertion (by decide)) (h.assertion (by decide))

/-- A component in its place, with the fields that it had and maybe more. -/
def InPlace (p p' : ℕ × SbomComponent) : Prop := p.1 = p'.1 ∧ Fuller p.2 p'.2

theorem Completed.found {vs vs' : List Value}
    (h : Completed (fun c => arr (prop c "components")) vs vs') (depth : ℕ) :
    List.Forall₂ InPlace (foundOf vs depth) (foundOf vs' depth) := by
  induction h generalizing depth with
  | nil => exact .nil
  | other hv rest ih =>
    rw [foundOf, foundOf, foundIn_eq, if_neg (by simp [hv])]
    exact ih depth
  | component grown below rest ihbelow ihrest =>
    rw [foundOf, foundOf, foundIn_eq, foundIn_eq, if_pos grown.isObj, if_pos grown.isObj']
    exact .cons ⟨rfl, grown.cyclone⟩ (List.rel_append (ihbelow (depth + 1)) (ihrest depth))

theorem Completed.packages {ps ps' : List Value} (h : Completed (fun _ => []) ps ps') :
    List.Forall₂ InPlace ((ps.filter isObj).map fun p => (0, packageComponent p))
      ((ps'.filter isObj).map fun p => (0, packageComponent p)) := by
  induction h with
  | nil => exact .nil
  | other hv rest ih => simpa [hv] using ih
  | component grown below rest ihbelow ihrest =>
    rw [List.filter_cons_of_pos grown.isObj, List.filter_cons_of_pos grown.isObj']
    exact .cons ⟨rfl, grown.package⟩ ihrest

/-- A document whose components have got fields, and that says the same otherwise. -/
structure Supplemented (format : SbomFormat) (doc doc' : Value) : Prop where
  creationTime : creationTime format doc' = creationTime format doc
  statesDependency : statesDependency format doc' = statesDependency format doc
  components : match format with
    | .cyclonedx => Completed (fun c => arr (prop c "components")) (arr (prop doc "components"))
        (arr (prop doc' "components"))
    | .spdx => Completed (fun _ => []) (arr (prop doc "packages")) (arr (prop doc' "packages"))

theorem Supplemented.kept {format : SbomFormat} {doc doc' : Value}
    (h : Supplemented format doc doc') :
    List.Forall₂ Fuller (keptComponents format doc) (keptComponents format doc') := by
  have hfound : List.Forall₂ InPlace (allFound format doc) (allFound format doc') := by
    have hcomponents := h.components
    cases format with
    | cyclonedx => exact hcomponents.found 0
    | spdx => exact hcomponents.packages
  unfold keptComponents within
  apply List.forall₂_take
  apply List.rel_map (R := InPlace) (fun _ _ h => h.2)
  apply List.rel_filter (R := InPlace) _ hfound
  intro p p' hp
  have hdepth := hp.1
  simp [hdepth]

theorem countP_le_of_forall₂ {α : Type} {R : α → α → Prop} {p : α → Bool} {as bs : List α}
    (h : List.Forall₂ R as bs) (hp : ∀ a b, R a b → p a = true → p b = true) :
    as.countP p ≤ bs.countP p := by
  induction h with
  | nil => exact le_rfl
  | @cons a b as bs hab _ ih =>
    rw [List.countP_cons, List.countP_cons]
    by_cases ha : p a = true
    · rw [if_pos ha, if_pos (hp a b hab ha)]
      omega
    · rw [if_neg ha]
      omega

theorem Shares.mono {k : ℕ} {cs cs' : List SbomComponent} (h : List.Forall₂ Fuller cs cs')
    (hshares : Shares k cs) : Shares k cs' := by
  have hversion := countP_le_of_forall₂ (p := fun c => c.version) h fun _ _ hf => hf.version
  have hidentifier :=
    countP_le_of_forall₂ (p := fun c => c.identifier) h fun _ _ hf => hf.identifier
  unfold Shares at hshares ⊢
  rw [← h.length_eq]
  omega

/-- A missing field that is added never turns a document from fine to not fine. -/
theorem Reads.ok_of_supplemented {text text' : Text} {doc doc' : Value} {sbom sbom' : ParsedSbom}
    (h : Reads text doc sbom) (h' : Reads text' doc' sbom') (hformat : sbom'.format = sbom.format)
    (hdoc : Supplemented sbom.format doc doc') (now : Text)
    (hok : (checkSbom sbom now).ok = true) : (checkSbom sbom' now).ok = true := by
  rw [h.ok_iff now] at hok
  rw [h'.ok_iff now, hformat]
  obtain ⟨⟨hne, hcreated, hdeps⟩, hshares⟩ := hok
  have hkept := hdoc.kept
  refine ⟨⟨?_, by rwa [hdoc.creationTime], ?_⟩, hshares.mono hkept⟩
  · intro hnil
    rw [hnil, List.forall₂_nil_right_iff] at hkept
    exact hne hkept
  · rw [hdoc.statesDependency, ← hkept.length_eq]
    exact hdeps

/-! ## The check of a document -/

/-- The check and the rule agree on a document that is neither too deep nor too long, unless
a share is just below 90 percent; on any other as far as they agree on what is kept. A
field that is added does no harm. -/
theorem checkSbom_rule {text : Text} {doc : Value} {sbom : ParsedSbom} (h : Reads text doc sbom)
    (now : Text) :
    ((∀ p ∈ allFound sbom.format doc, p.1 ≤ maxDepth) →
      (allFound sbom.format doc).length ≤ maxComponents →
      (((checkSbom sbom now).ok = true ↔ Meets sbom.format doc (allComponents sbom.format doc)) ↔
        ¬ RoundsUp sbom.format doc (allComponents sbom.format doc))) ∧
    (((checkSbom sbom now).ok = true ↔ Meets sbom.format doc (allComponents sbom.format doc)) ↔
      (RoundsUp sbom.format doc (keptComponents sbom.format doc) ∧
          Meets sbom.format doc (allComponents sbom.format doc)) ∨
        (¬ RoundsUp sbom.format doc (keptComponents sbom.format doc) ∧
          (Meets sbom.format doc (keptComponents sbom.format doc) ↔
            Meets sbom.format doc (allComponents sbom.format doc)))) ∧
    ∀ text' doc' sbom', Reads text' doc' sbom' → sbom'.format = sbom.format →
      Supplemented sbom.format doc doc' → (checkSbom sbom now).ok = true →
        (checkSbom sbom' now).ok = true := by
  have hok := h.ok_iff_meets now
  refine ⟨fun hdepth hlength => ?_, ?_, fun text' doc' sbom' h' hformat hdoc =>
    h.ok_of_supplemented h' hformat hdoc now⟩
  · rw [keptComponents_eq_all hdepth hlength] at hok
    rw [hok]
    unfold Meets RoundsUp
    tauto
  · rw [hok]
    tauto

/-- The reading of a CycloneDX document. -/
theorem reads_cyclone {text : Text} {doc : Value} (hdoc : parseJson text = .ok doc)
    (hformat : formatOf doc = .ok .cyclonedx) : Reads text doc (parseCycloneDx doc) := by
  refine ⟨hdoc, ?_⟩
  unfold parseSbom parseDocument
  rw [hdoc]
  dsimp only
  rw [hformat]

/-- A CycloneDX document with a time, some components and one dependency. -/
def sampleDoc (components : List Value) : Value :=
  .obj [(js "bomFormat", .text "CycloneDX"), (js "metadata", .obj [(js "timestamp", .text "t")]),
    (js "components", .arr components),
    (js "dependencies", .arr [.obj [(js "dependsOn", .arr [.text "a"])]])]

/-- The text of such a document. -/
def sampleText (components : Text) : Text :=
  js "\x7b\"bomFormat\":\"CycloneDX\",\"metadata\":\x7b\"timestamp\":\"t\"\x7d,\"components\":[" ++
    components ++ js "],\"dependencies\":[\x7b\"dependsOn\":[\"a\"]\x7d]\x7d"

def namelessText : Text := sampleText (js "\x7b\x7d")

/-- Of 29 components 26 have a version and an identifier. -/
def roundedText : Text :=
  sampleText ((List.replicate 26 (js "\x7b\"version\":\"1\",\"purl\":\"p\"\x7d,")).flatten ++
    js "\x7b\x7d,\x7b\x7d,\x7b\x7d")

def roundedDoc : Value :=
  sampleDoc (List.replicate 26 (.obj [(js "version", .text "1"), (js "purl", .text "p")]) ++
    List.replicate 3 (.obj []))

/-- The rule of a document with one component, of which nothing is told. -/
theorem nameless_rule :
    (checkSbom (parseCycloneDx (sampleDoc [.obj []])) (js "2026-10-08T00:00:00.000Z")).ok = true ↔
      Meets .cyclonedx (sampleDoc [.obj []]) (allComponents .cyclonedx (sampleDoc [.obj []])) := by
  have h : Reads namelessText (sampleDoc [.obj []]) (parseCycloneDx (sampleDoc [.obj []])) :=
    reads_cyclone (by
      simp only [namelessText, sampleText, sampleDoc, Value.text]
      repeat rw [js_ofList]
      decide +kernel) (by decide +kernel)
  refine ((checkSbom_rule h (js "2026-10-08T00:00:00.000Z")).1 (by decide +kernel) (by decide +kernel)).mpr ?_
  rintro ⟨-, hshares, -⟩
  revert hshares
  decide +kernel

/-- A document of which 26 of 29 components have what they need passes, at 89.7 percent. -/
theorem rounded_passes : ∃ sbom, Reads roundedText roundedDoc sbom ∧
    (∀ now, (checkSbom sbom now).ok = true) ∧
    ¬ Meets sbom.format roundedDoc (allComponents sbom.format roundedDoc) := by
  have h : Reads roundedText roundedDoc (parseCycloneDx roundedDoc) :=
    reads_cyclone (by
      simp only [roundedText, roundedDoc, sampleText, sampleDoc, Value.text]
      repeat rw [js_ofList]
      decide +kernel) (by decide +kernel)
  refine ⟨_, h, fun now => ?_, ?_⟩
  · have hblocking : (blocking (parseCycloneDx roundedDoc)).isEmpty = true := by decide +kernel
    rwa [checkSbom_ok]
  · rintro ⟨-, hshares⟩
    revert hshares
    decide +kernel

end Klick.Sbom
