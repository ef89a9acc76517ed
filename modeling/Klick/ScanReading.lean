-- A scan file is read completely exactly where no object that a limit applies to stands
-- behind it; of a file read completely a full scan resolves nothing that it reports.
import Klick.CanonicalJson
import Klick.FindingRuns
import Klick.NormalForm
import Klick.ScanParsers

namespace Klick.Security

open Js Findings

variable {upper : Text → Text}

/-! ## The loop -/

/-- No object to which the limit applies stands behind so many findings. -/
def Fits (taken : ℕ) (objects : List ScanObject) : Prop :=
  ∀ i o, objects[i]? = some o → o.capped = true → taken + i < maxFindings

theorem fits_nil (taken : ℕ) : Fits taken [] := by
  intro i o ho
  simp at ho

theorem fits_cons {taken : ℕ} {o : ScanObject} {objects : List ScanObject} :
    Fits taken (o :: objects) ↔
      (o.capped = true → taken < maxFindings) ∧ Fits (taken + 1) objects := by
  constructor
  · intro h
    refine ⟨fun hcap => by simpa using h 0 o rfl hcap, fun i p hp hcap => ?_⟩
    have := h (i + 1) p (by simpa using hp) hcap
    omega
  · rintro ⟨hfirst, hrest⟩ i p hp hcap
    cases i with
    | zero =>
      have hop : o = p := by simpa using hp
      subst hop
      simpa using hfirst hcap
    | succ i =>
      have := hrest i p (by simpa using hp) hcap
      omega

/-- The loop adds as many findings as there are objects, at most. -/
theorem length_collect_le {objects : List ScanObject} {findings result : List NormalizedFinding}
    (h : collect upper objects findings = .ok result) :
    result.length ≤ findings.length + objects.length := by
  induction objects generalizing findings with
  | nil =>
    cases h
    simp
  | cons o objects ih =>
    unfold collect at h
    rw [List.length_cons]
    split_ifs at h with hfull
    · have := ih h
      omega
    · cases hf : o.finding upper with
      | error e => rw [hf] at h; cases h
      | ok f =>
        rw [hf] at h
        have := ih h
        rw [List.length_append, List.length_singleton] at this
        omega

/-- The findings of objects, each its own and in order. -/
def Complete (upper : Text → Text) (objects : List ScanObject)
    (findings : List NormalizedFinding) : Prop :=
  List.Forall₂ (fun o f => o.finding upper = .ok f) objects findings

/-- Objects that fit are all taken. -/
theorem collect_complete {objects : List ScanObject} {findings result : List NormalizedFinding}
    (h : collect upper objects findings = .ok result) (hfits : Fits findings.length objects) :
    ∃ news, result = findings ++ news ∧ Complete upper objects news := by
  induction objects generalizing findings with
  | nil =>
    cases h
    exact ⟨[], by simp, .nil⟩
  | cons o objects ih =>
    obtain ⟨hfirst, hrest⟩ := fits_cons.mp hfits
    unfold collect at h
    split_ifs at h with hfull
    · obtain ⟨hcap, hlength⟩ : o.capped = true ∧ maxFindings ≤ findings.length := by
        simpa using hfull
      have := hfirst hcap
      omega
    · cases hf : o.finding upper with
      | error e => rw [hf] at h; cases h
      | ok f =>
        rw [hf] at h
        obtain ⟨news, hnews, hcomplete⟩ :=
          ih h (by rwa [List.length_append, List.length_singleton])
        exact ⟨f :: news, by rw [hnews, List.append_assoc]; rfl, .cons hf hcomplete⟩

/-- Of objects that do not fit one at least is left out. -/
theorem length_collect_lt {objects : List ScanObject} {findings result : List NormalizedFinding}
    (h : collect upper objects findings = .ok result) (hfits : ¬ Fits findings.length objects) :
    result.length < findings.length + objects.length := by
  induction objects generalizing findings with
  | nil => exact absurd (fits_nil _) hfits
  | cons o objects ih =>
    rw [fits_cons] at hfits
    unfold collect at h
    rw [List.length_cons]
    split_ifs at h with hfull
    · have := length_collect_le h
      omega
    · have hfirst : o.capped = true → findings.length < maxFindings := by
        intro hcap
        simpa [hcap] using hfull
      cases hf : o.finding upper with
      | error e => rw [hf] at h; cases h
      | ok f =>
        rw [hf] at h
        have := ih h (by
          rw [List.length_append, List.length_singleton]
          exact fun hrest => hfits ⟨hfirst, hrest⟩)
        rw [List.length_append, List.length_singleton] at this
        omega

/-- The loop takes all objects of a file exactly where they fit. -/
theorem complete_iff {objects : List ScanObject} {findings : List NormalizedFinding}
    (h : collect upper objects [] = .ok findings) :
    Complete upper objects findings ↔ Fits 0 objects := by
  constructor
  · intro hcomplete
    by_contra hfits
    have hlt := length_collect_lt h hfits
    rw [hcomplete.length_eq, List.length_nil, Nat.zero_add] at hlt
    exact lt_irrefl _ hlt
  · intro hfits
    obtain ⟨news, hnews, hcomplete⟩ := collect_complete h hfits
    rw [List.nil_append] at hnews
    rwa [hnews]

/-! ## The formats -/

/-- The items of gitleaks are cut as the loop would cut them. -/
theorem collect_gitleaks (items : List Value) {findings : List NormalizedFinding}
    (hlength : findings.length ≤ maxFindings) :
    collect upper (items.map .gitleaksItem) findings =
      .ok (findings ++ (items.take (maxFindings - findings.length)).map gitleaksFinding) := by
  induction items generalizing findings with
  | nil => simp [collect]
  | cons g items ih =>
    rw [List.map_cons, collect]
    by_cases hfull : maxFindings ≤ findings.length
    · have hzero : maxFindings - findings.length = 0 := by omega
      rw [if_pos (by simp [ScanObject.capped, hfull]), ih hlength, hzero]
      simp
    · have hsucc : maxFindings - findings.length =
          maxFindings - (findings.length + 1) + 1 := by omega
      rw [if_neg (by simp [ScanObject.capped, hfull]), hsucc, List.take_succ_cons]
      refine (ih (by rw [List.length_append, List.length_singleton]; omega)).trans ?_
      rw [List.length_append, List.length_singleton]
      simp

/-- Each reader gives what the loop takes of the objects of its file. -/
theorem parseFile_findings {file : ScanFile} {scan : ParsedScan}
    (h : parseFile upper file = .ok scan) :
    collect upper file.objects [] = .ok scan.findings := by
  have hbind {objects : List ScanObject} {make : List NormalizedFinding → ParsedScan}
      (hmake : ∀ fs, (make fs).findings = fs)
      (h : (do let fs ← collect upper objects []; return make fs) = Except.ok scan) :
      collect upper objects [] = .ok scan.findings := by
    cases hc : collect upper objects [] with
    | error e => rw [hc] at h; cases h
    | ok fs =>
      rw [hc] at h
      cases h
      rw [hmake]
  cases file with
  | sarif doc => exact hbind (fun _ => rfl) h
  | trivy doc => exact hbind (fun _ => rfl) h
  | zap doc => exact hbind (fun _ => rfl) h
  | osv doc => exact hbind (fun _ => rfl) h
  | nuclei lines => exact hbind (fun _ => rfl) h
  | gitleaks items =>
    cases h
    have hcut := @collect_gitleaks upper items [] (Nat.zero_le _)
    simpa [ScanFile.objects, parseGitleaks] using hcut

/-- A text is read as a file of one of the formats. -/
structure ReadsAs (upper : Text → Text) (text fileName : Text) (file : ScanFile)
    (scan : ParsedScan) : Prop where
  file : fileOf text fileName = .ok file
  scan : parseScanFile upper text fileName = .ok (.ok scan)

theorem ReadsAs.findings {text fileName : Text} {file : ScanFile} {scan : ParsedScan}
    (h : ReadsAs upper text fileName file scan) :
    collect upper file.objects [] = .ok scan.findings := by
  apply parseFile_findings
  have hscan := h.scan
  unfold parseScanFile at hscan
  rw [h.file] at hscan
  dsimp only at hscan
  cases hparse : parseFile upper file with
  | error e => rw [hparse] at hscan; cases hscan
  | ok parsed =>
    rw [hparse] at hscan
    cases hscan
    rfl

/-! ## The import of a full scan -/

/-- The part of a finding by which it is recognised and stored. -/
def NormalizedFinding.stored (f : NormalizedFinding) : Findings.NormalizedFinding where
  ruleId := f.ruleId
  title := f.title
  severity := f.severity
  category := f.category
  location := f.location
  cve := f.cve
  package := f.package.map (·.name)
  toolFingerprint := f.toolFingerprint

/-- The import of a scan for a product. -/
def importOf (scan : ParsedScan) (productId : Option Text) (fullScan : Bool) (scanId : Text) :
    ImportInput where
  scope := ⟨scan.tool, scan.target, productId⟩
  findings := scan.findings.map (·.stored)
  fullScan
  scanId

/-- Objects report a fingerprint that one of their findings has. -/
def Reports (upper digest : Text → Text) (objects : List ScanObject) (target : Option Text)
    (fp : Text) : Prop :=
  ∃ o ∈ objects, ∃ f, o.finding upper = .ok f ∧ fingerprint digest f.stored target = fp

theorem addIncoming_keys (found : List (Text × Findings.NormalizedFinding))
    (new : Text × Findings.NormalizedFinding) (fp : Text) :
    fp ∈ (addIncoming found new).map (·.1) ↔ fp ∈ found.map (·.1) ∨ fp = new.1 := by
  induction found with
  | nil => simp [addIncoming]
  | cons old rest ih =>
    unfold addIncoming
    by_cases hsame : old.1 = new.1
    · rw [if_pos hsame]
      have hkeys : fp = new.1 ∨ fp ∈ rest.map (·.1) ↔
          (fp = new.1 ∨ fp ∈ rest.map (·.1)) ∨ fp = new.1 := by tauto
      split_ifs
      · simpa [hsame] using hkeys
      · simpa [hsame] using hkeys
    · rw [if_neg hsame]
      simp only [List.map_cons, List.mem_cons, ih]
      tauto

/-- The fingerprints of an import are those of its findings. -/
theorem mem_fps {digest : Text → Text} {input : ImportInput} {fp : Text} :
    fp ∈ input.fps digest ↔
      ∃ f ∈ input.findings, fingerprint digest f input.scope.target = fp := by
  have hfold (new found : List (Text × Findings.NormalizedFinding)) :
      fp ∈ (new.foldl addIncoming found).map (·.1) ↔
        fp ∈ found.map (·.1) ∨ fp ∈ new.map (·.1) := by
    induction new generalizing found with
    | nil => simp
    | cons n new ih =>
      rw [List.foldl_cons, ih, addIncoming_keys]
      simp only [List.map_cons, List.mem_cons]
      tauto
  unfold ImportInput.fps ImportInput.incoming incomingOf
  rw [hfold]
  simp

/-- What an object of a file read completely reports, its scan has. -/
theorem Complete.reports {objects : List ScanObject} {scan : ParsedScan}
    (h : Complete upper objects scan.findings) {digest : Text → Text} {fp : Text}
    (hfp : Reports upper digest objects scan.target fp) (productId : Option Text)
    (fullScan : Bool) (scanId : Text) :
    fp ∈ (importOf scan productId fullScan scanId).fps digest := by
  obtain ⟨o, ho, f, hf, rfl⟩ := hfp
  obtain ⟨i, hi, rfl⟩ := List.getElem_of_mem ho
  have hlength := h.length_eq
  have hfinding := (List.forall₂_iff_get.mp h).2 i hi (by omega)
  rw [List.get_eq_getElem, hf] at hfinding
  rw [mem_fps]
  refine ⟨f.stored, List.mem_map.mpr ⟨f, ?_, rfl⟩, rfl⟩
  rw [Except.ok.inj hfinding]
  exact List.getElem_mem _

/-- The import of a file read completely resolves nothing that the file reports. -/
theorem Complete.resolves {objects : List ScanObject} {scan : ParsedScan}
    (h : Complete upper objects scan.findings) {digest : Text → Text} {rows : List FindingRow}
    (hrows : Unique rows) {newId : Text → Text} {productId : Option Text} {fullScan : Bool}
    {scanId : Text} {now : ℤ}
    (hfresh : FreshIds digest rows newId (importOf scan productId fullScan scanId))
    {r r' : FindingRow} (hr : r ∈ rows)
    (hr' : r' ∈ (importScan digest rows newId (importOf scan productId fullScan scanId) now).rows)
    (hid : r'.id = r.id) (hbefore : r.status ≠ .resolved) (hafter : r'.status = .resolved) :
    ¬ Reports upper digest objects scan.target r.fingerprint := by
  intro hreports
  rw [importScan_of_id hrows hfresh hr hr' hid] at hafter
  have hresolve := resolved_of_reconciled hrows hr hbefore hafter
  rw [planOf, resolve_iff hrows existingOf_sub hr] at hresolve
  exact hresolve.2.2.1 (h.reports hreports productId fullScan scanId)

/-! ## Complete or refused -/

theorem lineObjects_error {lines : List Text} {e : ScanParseError}
    (h : lineObjects lines = .error e) : e = .invalidJson := by
  induction lines with
  | nil => cases h
  | cons raw rest ih =>
    unfold lineObjects at h
    split_ifs at h with hblank
    · exact ih h
    · split at h
      · cases h
        rfl
      · cases hrest : lineObjects rest with
        | error e' =>
          rw [hrest] at h
          cases h
          exact ih hrest
        | ok objects => rw [hrest] at h; cases h

/-- No file is refused for the number of its findings. -/
theorem fileOf_ne_tooMany (text fileName : Text) : fileOf text fileName ≠ .error .tooMany := by
  intro h
  unfold fileOf at h
  dsimp only at h
  split_ifs at h with hempty hlines
  · cases h
  · cases hobjects : lineObjects (linesOf (trim text)) with
    | error e =>
      rw [hobjects] at h
      have := lineObjects_error hobjects
      rw [this] at h
      cases h
    | ok lines =>
      rw [hobjects] at h
      dsimp only at h
      split_ifs at h
      cases h
  · split at h
    · cases h
    · unfold arrayFile at h
      dsimp only at h
      split_ifs at h
      cases h
    · split_ifs at h
      · unfold objectFile at h
        dsimp only at h
        split_ifs at h
        cases h
      · cases h

/-- A file that is accepted gives one finding for each object that it reports exactly where
no object to which the limit applies stands behind as many others; then a full scan
resolves nothing that the file reports. -/
theorem parseScanFile_complete {text fileName : Text} {file : ScanFile} {scan : ParsedScan}
    (h : ReadsAs upper text fileName file scan) :
    (Complete upper file.objects scan.findings ↔ Fits 0 file.objects) ∧
    (Fits 0 file.objects → ∀ (digest : Text → Text) (rows : List FindingRow)
      (newId : Text → Text) (productId : Option Text) (fullScan : Bool) (scanId : Text) (now : ℤ),
      Unique rows → FreshIds digest rows newId (importOf scan productId fullScan scanId) →
        ∀ r ∈ rows, ∀ r' ∈ (importScan digest rows newId
            (importOf scan productId fullScan scanId) now).rows,
          r'.id = r.id → r.status ≠ .resolved → r'.status = .resolved →
            ¬ Reports upper digest file.objects scan.target r.fingerprint) := by
  have hiff := complete_iff h.findings
  refine ⟨hiff, ?_⟩
  intro hfits digest rows newId productId fullScan scanId now hrows hfresh r hr r' hr' hid
    hbefore hafter
  exact (hiff.mpr hfits).resolves hrows hfresh hr hr' hid hbefore hafter

/-- A leak of gitleaks under a rule. -/
def leak (rule : Text) : Value := .obj [(js "RuleID", .str rule), (js "Secret", .text "s")]

/-- The text of such a leak. -/
def leakText (rule : Text) : Text :=
  ch '\x7b' :: (join (ch ',') ([(js "RuleID", quote rule),
    (js "Secret", quote (js "s"))].map pairText) ++ [ch '\x7d'])

/-- The text of a list of leaks. -/
def leaksText (rules : List Text) : Text :=
  ch '[' :: (join (ch ',') (rules.map leakText) ++ [ch ']'])

theorem written_leak (rule : Text) : Written (leak rule) (leakText rule) := by
  apply written_obj
  · exact .cons ⟨rfl, written_str rule⟩ (.cons ⟨rfl, written_str (js "s")⟩ .nil)
  · simp only [List.pairwise_cons, List.mem_singleton, forall_eq, List.not_mem_nil, false_implies,
      implies_true, List.Pairwise.nil, and_true]
    decide
  · simp only [keys, List.map_cons, List.map_nil]
    decide

theorem parseJson_leaks (rules : List Text) :
    parseJson (leaksText rules) = .ok (.arr (rules.map leak)) := by
  apply Written.parseJson
  apply written_arr
  induction rules with
  | nil => exact .nil
  | cons rule rules ih => exact .cons (written_leak rule) ih

/-- A list of leaks is read as a file of gitleaks. -/
theorem readsAs_leaks {rules : List Text} (hne : rules ≠ []) :
    ReadsAs upper (leaksText rules) [] (.gitleaks (rules.map leak))
      (parseGitleaks (rules.map leak)) := by
  have htrim : trim (leaksText rules) = leaksText rules := by
    have hopen : isTrimmed (ch '[') = false := by decide
    have hclose : isTrimmed (ch ']') = false := by decide
    simp [trim, leaksText, hopen, hclose]
  have hitems : (rules.map leak).filter isObj = rules.map leak := by
    rw [List.filter_eq_self]
    intro v hv
    obtain ⟨rule, -, rfl⟩ := List.mem_map.mp hv
    rfl
  have hfile : fileOf (leaksText rules) [] = .ok (.gitleaks (rules.map leak)) := by
    have hsuffix : (js ".jsonl").isSuffixOf [] = false := by decide
    have hbrace : ¬ (ch '[' = ch '\x7b') := by decide
    unfold fileOf
    dsimp only
    rw [htrim, if_neg (by simp [leaksText]),
      if_neg (by simp [hsuffix, startsWithLines, leaksText, hbrace]), parseJson_leaks]
    dsimp only
    unfold arrayFile
    rw [hitems, if_neg (by simpa using hne), if_pos]
    obtain ⟨rule, rest, rfl⟩ := List.exists_cons_of_ne_nil hne
    rw [List.map_cons, List.any_cons, Bool.or_eq_true]
    left
    simp [hasKey, leak, keys]
  refine ⟨hfile, ?_⟩
  unfold parseScanFile
  rw [hfile]
  rfl

/-- A file of one leak is read completely. -/
theorem single_leak_complete :
    Complete id [.gitleaksItem (leak (js "a"))] [gitleaksFinding (leak (js "a"))] := by
  have hreads := @readsAs_leaks id [js "a"] (List.cons_ne_nil _ _)
  apply (parseScanFile_complete hreads).1.mpr
  rw [ScanFile.objects, List.map_cons, List.map_nil, List.map_cons, List.map_nil, fits_cons]
  exact ⟨fun _ => by decide, fits_nil _⟩

/-- As many leaks of one rule as the limit allows, and one of another rule. -/
def manyRules : List Text := List.replicate maxFindings (js "a") ++ [js "b"]

theorem take_manyLeaks :
    (manyRules.map leak).take maxFindings = List.replicate maxFindings (leak (js "a")) := by
  rw [manyRules, List.map_append, List.map_replicate, List.take_append_of_le_length (by simp),
    List.take_of_length_le (by simp)]

/-- The leak behind the limit is dropped without a word, and a full scan would take it for
resolved though the file reports it. -/
theorem leak_behind_the_limit :
    ReadsAs id (leaksText manyRules) [] (.gitleaks (manyRules.map leak))
      (parseGitleaks (manyRules.map leak)) ∧
    ¬ Complete id (ScanFile.gitleaks (manyRules.map leak)).objects
      (parseGitleaks (manyRules.map leak)).findings ∧
    ∃ fp, Reports id id (ScanFile.gitleaks (manyRules.map leak)).objects none fp ∧
      fp ∉ (importOf (parseGitleaks (manyRules.map leak)) none true []).fps id := by
  have hreads := @readsAs_leaks id manyRules (by simp [manyRules])
  refine ⟨hreads, ?_, fingerprint id (gitleaksFinding (leak (js "b"))).stored none, ?_, ?_⟩
  · rw [complete_iff hreads.findings]
    intro hfits
    have hlast : (ScanFile.gitleaks (manyRules.map leak)).objects[maxFindings]? =
        some (.gitleaksItem (leak (js "b"))) := by
      simp [ScanFile.objects, manyRules]
    have := hfits maxFindings _ hlast rfl
    omega
  · refine ⟨.gitleaksItem (leak (js "b")), ?_, _, rfl, rfl⟩
    simp [ScanFile.objects, manyRules]
  · rw [mem_fps]
    rintro ⟨f, hf, hfp⟩
    simp only [importOf, parseGitleaks, take_manyLeaks, List.map_replicate] at hf
    rw [List.eq_of_mem_replicate hf] at hfp
    revert hfp
    decide

end Klick.Security
