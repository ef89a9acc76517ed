-- The readers of scan files (`lib/security/parsers.ts`): SARIF, Trivy, ZAP, OSV-Scanner,
-- Nuclei and gitleaks give findings of one form. Each reader goes through the objects
-- that its format lists, and stops taking them at a limit.
import Klick.Findings
import Klick.LowerCase
import Klick.ScanValues
import Klick.Templates

namespace Klick.Security

open Js Findings Templates

/-! ## Findings -/

structure AffectedPackage where
  name : Text
  version : Option Text
  fixed : Option Text
deriving DecidableEq

/-- A finding as the readers give it. -/
structure NormalizedFinding where
  ruleId : Text
  title : Text
  severity : FindingSeverity
  category : FindingCategory
  location : Option Text := none
  cwe : Option Text := none
  cve : Option Text := none
  cvss : Option ℚ := none
  description : Option Text := none
  remediation : Option Text := none
  package : Option AffectedPackage := none
  evidence : Option Text := none
  toolFingerprint : Option Text := none
deriving DecidableEq

structure ParsedScan where
  tool : ScanTool
  toolName : Option Text
  target : Option Text
  findings : List NormalizedFinding
deriving DecidableEq

inductive ScanParseError where
  | invalidJson
  | unknownFormat
  | tooMany
deriving DecidableEq, Repr

/-- `MAX_FINDINGS` -/
def maxFindings : ℕ := 20000

/-- `TEXT_MAX` -/
def textMax : ℕ := 4000

/-! ## Severities and secrets -/

def severityFromCvss (score : Option ℚ) : Option FindingSeverity :=
  score.map fun s =>
    if 9 ≤ s then .critical else if 7 ≤ s then .high else if 4 ≤ s then .medium
    else if 0 < s then .low else .info

/-- No letter outside of ASCII has one of the letters of these words as its lower case. -/
def severityFromLabel (label : Option Text) : FindingSeverity :=
  let l := lowerAscii (trim (label.getD []))
  if l = js "critical" then .critical
  else if l = js "high" ∨ l = js "error" then .high
  else if l = js "medium" ∨ l = js "moderate" ∨ l = js "warning" then .medium
  else if l = js "low" ∨ l = js "note" then .low
  else .info

/-- The first four characters of a long secret, and its length. -/
def redactSecret (secret : Option Text) : Option Text :=
  match secret with
  | none => none
  | some t =>
    let s := trim t
    if s = [] then none
    else
      let head := if 12 < s.length then s.take 4 else []
      some (head ++ js "…(" ++ decimal s.length ++ js " Zeichen)")

/-- The secret in a text is redacted; without a secret the text stays as it is. -/
def redactIn (text secret : Option Text) : Option Text :=
  match text with
  | none => none
  | some t =>
    if t = [] then none
    else
      match secret with
      | none => some t
      | some s =>
        if s = [] then some t
        else some (replaceAll s ((redactSecret (some s)).getD (js "…")) t.length t)

/-! ## Values of a file -/

/-- A finite number, or a text that is one. -/
def num : Value → Option ℚ
  | .num (.fin q) => some q
  | .str t =>
    match textNumber t with
    | .fin q => some q
    | _ => none
  | _ => none

def clip (v : Option Text) (max : ℕ) : Option Text :=
  v.map fun t => if max < t.length then t.take max ++ js "…" else t

/-- A lower-case word stands somewhere in a text, in any case. -/
def mentions (word : String) (t : Text) : Bool :=
  (lowerAscii t).tails.any fun s => (js word).isPrefixOf s

def startsCi (word : String) (t : Text) : Bool := (js word).isPrefixOf (lowerAscii t)

/-- Tags become blanks; `opened` is what stands since the last `<`. -/
def stripTags : Option Text → Text → Text
  | none, [] => []
  | some opened, [] => ch '<' :: opened
  | none, u :: t => if u = ch '<' then stripTags (some []) t else u :: stripTags none t
  | some opened, u :: t =>
    if u = ch '>' then
      (if opened = [] then [ch '<', ch '>'] else [ch ' ']) ++ stripTags none t
    else stripTags (some (opened ++ [u])) t

/-- Each run of blanks becomes one blank. -/
def collapse : Bool → Text → Text
  | _, [] => []
  | blank, u :: t =>
    if isTrimmed u then (if blank then [] else [ch ' ']) ++ collapse true t
    else u :: collapse false t

def stripHtml (v : Option Text) : Option Text :=
  v.map fun t => trim (collapse false (stripTags none t))

/-- `flatMap` of values, where an array stands for its items. -/
def spread (vals : List Value) : List Value :=
  vals.flatMap fun v => match v with
    | .arr items => items
    | v => [v]

/-- `/^CVE-\d{4}-\d+$/i` -/
def isCve (t : Text) : Bool :=
  let r := t.drop 4
  startsCi "cve-" t && (r.take 4).length = 4 && (r.take 4).all isDigit && r[4]? = some (ch '-') &&
    r.drop 5 ≠ [] && (r.drop 5).all isDigit

/-- The digits after `cwe` at the front of a text; a dash or a slash may stand between. -/
def cweDigits (t : Text) : Option Text :=
  if startsCi "cwe" t then
    let r := t.drop 3
    let r := match r with
      | u :: r' => if u = ch '-' || u = ch '/' then r' else r
      | [] => r
    let ds := r.takeWhile isDigit
    if ds = [] then none else some ds
  else none

/-- The first of the values that names a weakness. -/
def firstCwe : List Value → Except Exn (Option Text)
  | [] => .ok none
  | v :: vs => do
    let text ← match v with
      | .undefined => .ok []
      | .null => .ok []
      | v => v.toText
    match (text.tails.filterMap cweDigits).head? with
    | some ds => return some (js "CWE-" ++ ds)
    | none =>
      match v with
      | .num n =>
        if Number.lt (.fin 0) n then return some (js "CWE-" ++ n.toText) else firstCwe vs
      | .str t =>
        if t ≠ [] ∧ t.all isDigit ∧ t ≠ js "0" then return some (js "CWE-" ++ t)
        else firstCwe vs
      | _ => firstCwe vs

def cweOf (vals : List Value) : Except Exn (Option Text) := firstCwe (spread vals)

/-- `a:line`, or `a` alone without a line. -/
def atLine (a : Option Text) (line : Option ℚ) : Option Text :=
  a.map fun a => match line with
    | some q => if q = 0 then a else a ++ ch ':' :: (Number.fin q).toText
    | none => a

section Readers

-- `toUpperCase`
variable (upper : Text → Text)

def cveOf (vals : List Value) : Option Text :=
  (((spread vals).filterMap textOf).find? isCve).map upper

/-! ## What a file reports -/

/-- A run of a SARIF file, as its results need it. -/
structure SarifRun where
  name : Text
  isSecretTool : Bool
  rules : List Value

/-- An object of a file that stands for a finding, with what is read beside it. -/
inductive ScanObject where
  | sarifResult (run : SarifRun) (res : Value)
  | trivyVulnerability (target : Option Text) (v : Value)
  | trivyMisconfiguration (target : Option Text) (m : Value)
  | trivySecret (target : Option Text) (s : Value)
  | zapAlert (site a : Value)
  | osvVulnerability (src : Option Text) (package : Value) (groups : List Value) (v : Value)
  | nucleiLine (l : Value)
  | gitleaksItem (g : Value)

def objOr (v : Value) : Value := if isObj v then v else .obj []

def numIn (v : Value) (k : String) : Option ℚ := if isObj v then num (prop v k) else none

/-- `ruleById.get`: of several rules with one id, the last. -/
def ruleById (rules : List Value) (id : Text) : Value :=
  ((rules.reverse.find? fun r => (str (prop r "id")).getD [] = id)).getD (.obj [])

/-- The id of the rule at an index. -/
def ruleIdAt (rules : List Value) (index : Value) : Option Text :=
  match index.int? with
  | some i => if i < 0 then none else (rules[i.toNat]?).bind fun r => str (prop r "id")
  | none => none

def secretText : Text := js "Secret im Code gefunden (Wert redigiert)."

/-- The id of the rule that a result names. -/
def resultRuleId (run : SarifRun) (res : Value) : Text :=
  ((str (prop res "ruleId")).or (ruleIdAt run.rules (prop res "ruleIndex"))).getD (js "rule")

def resultRule (run : SarifRun) (res : Value) : Value :=
  ruleById run.rules (resultRuleId run res)

def resultProperties (run : SarifRun) (res : Value) : Value :=
  objOr (prop (resultRule run res) "properties")

def resultTags (run : SarifRun) (res : Value) : Except Exn (List Text) :=
  (arr (prop (resultProperties run res) "tags")).mapM Value.toText

/-- The file and the line of the first location; its snippets are left out. -/
def resultLocation (res : Value) : Option Text :=
  let loc := ((arr (prop res "locations")).find? isObj).getD (.obj [])
  let phys := objOr (prop loc "physicalLocation")
  atLine (strIn (prop phys "artifactLocation") "uri") (numIn (prop phys "region") "startLine")

def resultMessage (res : Value) : Option Text := strIn (prop res "message") "text"

def sarifFinding (run : SarifRun) (res : Value) : Except Exn NormalizedFinding := do
  let ruleId := resultRuleId run res
  let rule := resultRule run res
  let tags ← resultTags run res
  let secScore := num (prop (resultProperties run res) "security-severity")
  let level := (str (prop res "level")).or (strIn (prop rule "defaultConfiguration") "level")
  let secret := run.isSecretTool || tags.any (mentions "secret")
  let cve := startsCi "cve-" ruleId
  let category : FindingCategory := if secret then .secret else if cve then .dependency else .code
  let message := resultMessage res
  let pfp := match prop res "partialFingerprints" with
    | .obj fields => (fields.filterMap fun f => textOf f.2).head?
    | _ => none
  let cwe ← cweOf (tags.map .str)
  return {
    ruleId
    title := ((strIn (prop rule "shortDescription") "text").or (clip message 200)).getD ruleId
    severity :=
      if category = .secret then .high
      else (severityFromCvss secScore).getD (severityFromLabel level)
    category
    location := resultLocation res
    cwe
    cve := if cve then some (upper ruleId) else none
    cvss := secScore
    description := clip (if category = .secret then some secretText
      else (strIn (prop rule "fullDescription") "text").or message) textMax
    remediation := clip (strIn (prop rule "help") "text") textMax
    toolFingerprint := pfp }

/-- The highest of the scores that a vulnerability has, 0 without one. -/
def trivyScore (cvss : Value) : Option ℚ :=
  match cvss with
  | .obj fields =>
    some (((fields.map (·.2)).filter isObj).foldl (fun best x =>
      max best (((num (prop x "V3Score")).or (num (prop x "V40Score"))).getD 0)) 0)
  | _ => none

def updateText (name fixed : Option Text) : Option Text :=
  fixed.map fun f => js "Auf " ++ name.getD (js "null") ++ ch ' ' :: (f ++ js " aktualisieren.")

def inPackage (id : Text) (name : Option Text) : Text :=
  id ++ js " in " ++ name.getD (js "Paket")

def vulnerabilityFinding (target : Option Text) (v : Value) : Except Exn NormalizedFinding := do
  let cvss := trivyScore (prop v "CVSS")
  let id := (str (prop v "VulnerabilityID")).getD (js "vuln")
  let cwe ← cweOf [prop v "CweIDs"]
  return {
    ruleId := id
    title := (str (prop v "Title")).getD (inPackage id (str (prop v "PkgName")))
    severity := severityFromLabel (str (prop v "Severity"))
    category := .dependency
    location := target
    cve := cveOf upper [.str id]
    cwe
    cvss := cvss.filter fun s => s ≠ 0
    description := clip (str (prop v "Description")) textMax
    remediation := updateText (str (prop v "PkgName")) (str (prop v "FixedVersion"))
    package := some ⟨(str (prop v "PkgName")).getD (js "?"), str (prop v "InstalledVersion"),
      str (prop v "FixedVersion")⟩ }

def misconfigurationFinding (target : Option Text) (m : Value) : NormalizedFinding where
  ruleId := ((str (prop m "ID")).or (str (prop m "AVDID"))).getD (js "misconfig")
  title := (str (prop m "Title")).getD (js "Fehlkonfiguration")
  severity := severityFromLabel (str (prop m "Severity"))
  category := .config
  location := target
  description := clip (str (prop m "Description")) textMax
  remediation := clip (str (prop m "Resolution")) textMax

def trivySecretFinding (target : Option Text) (s : Value) : NormalizedFinding where
  ruleId := (str (prop s "RuleID")).getD (js "secret")
  title := (str (prop s "Title")).getD (js "Secret im Code")
  severity := .high
  category := .secret
  location := atLine target (num (prop s "StartLine"))
  description := some secretText

/-- `ZAP_RISK` -/
def zapRisk (code : Text) : FindingSeverity :=
  if code = js "3" then .high else if code = js "2" then .medium
  else if code = js "1" then .low else .info

/-- The texts that are there and not empty, with a space between them. -/
def spaced (texts : List (Option Text)) : Text :=
  join (ch ' ') ((texts.filterMap id).filter fun t => t ≠ [])

def alertFinding (site a : Value) : Except Exn NormalizedFinding := do
  let name := ((str (prop a "name")).or (str (prop a "alert"))).getD (js "Alert")
  let inst := (arr (prop a "instances")).filter isObj
  let uri := (inst.head?.bind fun i => str (prop i "uri")).or (str (prop site "@name"))
  let risk ← (prop a "riskcode").toText
  let cwe ← cweOf [prop a "cweid"]
  return {
    ruleId := js "zap-" ++ ((str (prop a "alertRef")).or (str (prop a "pluginid"))).getD name
    title := name
    severity := zapRisk risk
    category :=
      if ["header", "csp", "hsts", "x-frame", "content-type"].any (mentions · name) then .web
      else if ["cookie", "tls", "ssl"].any (mentions · name) then .config else .web
    location := uri
    cwe
    description := clip (some (spaced [stripHtml (str (prop a "desc")),
      if 1 < inst.length then some (decimal inst.length ++ js " Fundstellen.") else none])) textMax
    remediation := clip (stripHtml (str (prop a "solution"))) textMax }

/-- The first fixed version among the ranges of what is affected. -/
def osvFixed (v : Value) : Option Text :=
  let ranges := ((arr (prop v "affected")).filter isObj).flatMap fun a =>
    (arr (prop a "ranges")).filter isObj
  let events := ranges.flatMap fun rg => (arr (prop rg "events")).filter isObj
  (events.filterMap fun e => str (prop e "fixed")).head?

def osvFinding (src : Option Text) (package : Value) (groups : List Value) (v : Value) :
    NormalizedFinding :=
  let id := (str (prop v "id")).getD (js "osv")
  let group := groups.find? fun g => (arr (prop g "ids")).any fun i => textOf i = some id
  let score := group.bind fun g => num (prop g "max_severity")
  let fixed := osvFixed v
  { ruleId := id
    title := (str (prop v "summary")).getD (inPackage id (str (prop package "name")))
    severity := (severityFromCvss score).getD
      (severityFromLabel (strIn (prop v "database_specific") "severity"))
    category := .dependency
    location := src
    cve := cveOf upper [.str id, prop v "aliases"]
    cvss := score
    description := clip (str (prop v "details")) textMax
    remediation := updateText (str (prop package "name")) fixed
    package := some ⟨(str (prop package "name")).getD (js "?"), str (prop package "version"),
      fixed⟩ }

def nucleiFinding (l : Value) : Except Exn NormalizedFinding := do
  let info := objOr (prop l "info")
  let cls := objOr (prop info "classification")
  let id := (str (prop l "template-id")).getD (js "nuclei")
  let tags ← itemTexts (arr (prop info "tags"))
  let cwe ← cweOf [prop cls "cwe-id"]
  return {
    ruleId := id
    title := (str (prop info "name")).getD id
    severity := severityFromLabel (str (prop info "severity"))
    category :=
      if ["exposure", "exposed", "disclosure", "config"].any
          (mentions · (id ++ ch ' ' :: join (ch ' ') tags)) then .exposure else .web
    location := (str (prop l "matched-at")).or (str (prop l "host"))
    cve := cveOf upper [prop cls "cve-id"]
    cwe
    cvss := num (prop cls "cvss-score")
    description := clip (str (prop info "description")) textMax
    remediation := clip (str (prop info "remediation")) textMax }

def gitleaksFinding (g : Value) : NormalizedFinding :=
  let secret := str (prop g "Secret")
  { ruleId := (str (prop g "RuleID")).getD (js "secret")
    title := (str (prop g "Description")).getD (js "Secret im Code")
    severity := .high
    category := .secret
    location := atLine (str (prop g "File")) (num (prop g "StartLine"))
    description := some secretText
    remediation := some (js "Secret sofort widerrufen und neu ausstellen, aus der " ++
      js "Git-Historie entfernen, Zugriffe im Zeitraum prüfen.")
    evidence := (redactIn (str (prop g "Match")) secret).or (redactSecret secret)
    toolFingerprint := str (prop g "Fingerprint") }

/-- The finding of an object. -/
def ScanObject.finding : ScanObject → Except Exn NormalizedFinding
  | .sarifResult run res => sarifFinding upper run res
  | .trivyVulnerability target v => vulnerabilityFinding upper target v
  | .trivyMisconfiguration target m => .ok (misconfigurationFinding target m)
  | .trivySecret target s => .ok (trivySecretFinding target s)
  | .zapAlert site a => alertFinding site a
  | .osvVulnerability src package groups v => .ok (osvFinding upper src package groups v)
  | .nucleiLine l => nucleiFinding upper l
  | .gitleaksItem g => .ok (gitleaksFinding g)

/-- Whether the reader of the object stops at the limit: the one of Trivy looks at it for
vulnerabilities only. -/
def ScanObject.capped : ScanObject → Bool
  | .trivyMisconfiguration _ _ => false
  | .trivySecret _ _ => false
  | _ => true

/-- The loop of a reader over the objects of its file. -/
def collect : List ScanObject → List NormalizedFinding → Except Exn (List NormalizedFinding)
  | [], findings => .ok findings
  | o :: rest, findings =>
    if o.capped && maxFindings ≤ findings.length then collect rest findings
    else do
      let f ← o.finding upper
      collect rest (findings ++ [f])

/-! ## The formats -/

/-- `[name, version].filter(Boolean).join(" ")` -/
def withVersion (name : Text) (version : Option Text) : Text := spaced [some name, version]

def sarifDriver (run : Value) : Value := objOr (prop (objOr (prop run "tool")) "driver")

def sarifRun (run : Value) : SarifRun :=
  let name := (str (prop (sarifDriver run) "name")).getD (js "SARIF")
  ⟨name, ["gitleaks", "trufflehog", "secret"].any (mentions · name),
    (arr (prop (sarifDriver run) "rules")).filter isObj⟩

def sarifObjects (doc : Value) : List ScanObject :=
  ((arr (prop doc "runs")).filter isObj).flatMap fun run =>
    ((arr (prop run "results")).filter isObj).map (.sarifResult (sarifRun run))

def sarifToolName (doc : Value) : Option Text :=
  ((arr (prop doc "runs")).filter isObj).head?.map fun run =>
    withVersion (sarifRun run).name ((str (prop (sarifDriver run) "version")).or
      (str (prop (sarifDriver run) "semanticVersion")))

def parseSarif (doc : Value) : Except Exn ParsedScan := do
  let findings ← collect upper (sarifObjects doc) []
  return {
    tool := if findings.any fun f => f.category = .secret then .gitleaks else .sarif
    toolName := sarifToolName doc
    target := none
    findings }

/-- The objects of a result; a check that was passed is no misconfiguration. -/
def trivyObjects (doc : Value) : List ScanObject :=
  ((arr (prop doc "Results")).filter isObj).flatMap fun r =>
    let target := str (prop r "Target")
    ((arr (prop r "Vulnerabilities")).filter isObj).map (.trivyVulnerability target) ++
    ((arr (prop r "Misconfigurations")).filter fun m =>
      isObj m && str (prop m "Status") ≠ some (js "PASS")).map (.trivyMisconfiguration target) ++
    ((arr (prop r "Secrets")).filter isObj).map (.trivySecret target)

def parseTrivy (doc : Value) : Except Exn ParsedScan := do
  let findings ← collect upper (trivyObjects doc) []
  return {
    tool := .trivy
    toolName := some (match textOf (prop doc "SchemaVersion") with
      | some t => if trim t = [] then js "Trivy" else js "Trivy (Schema " ++ t ++ js ")"
      | none => js "Trivy")
    target := str (prop doc "ArtifactName")
    findings }

def zapObjects (doc : Value) : List ScanObject :=
  ((arr (prop doc "site")).filter isObj).flatMap fun site =>
    ((arr (prop site "alerts")).filter isObj).map (.zapAlert site)

def parseZap (doc : Value) : Except Exn ParsedScan := do
  let findings ← collect upper (zapObjects doc) []
  return {
    tool := .zap
    toolName := some (withVersion (js "OWASP ZAP") (str (prop doc "@version")))
    target := (((arr (prop doc "site")).filter isObj).filterMap fun site =>
      str (prop site "@name")).head?
    findings }

def osvSource (r : Value) : Option Text := strIn (prop r "source") "path"

def osvObjects (doc : Value) : List ScanObject :=
  ((arr (prop doc "results")).filter isObj).flatMap fun r =>
    ((arr (prop r "packages")).filter isObj).flatMap fun p =>
      ((arr (prop p "vulnerabilities")).filter isObj).map
        (.osvVulnerability (osvSource r) (objOr (prop p "package"))
          ((arr (prop p "groups")).filter isObj))

def parseOsv (doc : Value) : Except Exn ParsedScan := do
  let findings ← collect upper (osvObjects doc) []
  return {
    tool := .osv
    toolName := some (js "OSV-Scanner")
    target := (((arr (prop doc "results")).filter isObj).filterMap osvSource).head?
    findings }

/-- The host of the first lines that are taken. -/
def parseNuclei (lines : List Value) : Except Exn ParsedScan := do
  let findings ← collect upper (lines.map .nucleiLine) []
  return {
    tool := .nuclei
    toolName := some (js "Nuclei")
    target := ((lines.take maxFindings).filterMap fun l => str (prop l "host")).head?
    findings }

def parseGitleaks (items : List Value) : ParsedScan where
  tool := .gitleaks
  toolName := some (js "gitleaks")
  target := none
  findings := (items.take maxFindings).map gitleaksFinding

/-! ## Which format a file has -/

/-- A file of one of the formats. -/
inductive ScanFile where
  | sarif (doc : Value)
  | trivy (doc : Value)
  | zap (doc : Value)
  | osv (doc : Value)
  | nuclei (lines : List Value)
  | gitleaks (items : List Value)

/-- After a closing brace: blanks with an end of line, and an opening brace. -/
def nextObject (t : Text) : Bool :=
  ch '\n' ∈ t.takeWhile isTrimmed && (t.dropWhile isTrimmed).head? = some (ch '\x7b')

/-- Whether a brace on the first line closes an object before another one. -/
def closesObject : Text → Bool
  | [] => false
  | u :: t =>
    if u = ch '\n' then false
    else if u = ch '\x7d' && nextObject t then true
    else closesObject t

/-- Several objects, line by line. -/
def startsWithLines (t : Text) : Bool :=
  match t with
  | u :: r => u = ch '\x7b' && closesObject r
  | [] => false

/-- `split(/\r?\n/)` -/
def linesOf (t : Text) : List Text :=
  (t.splitOn (ch '\n')).dropLast.map (fun l =>
    if l.getLast? = some (ch '\r') then l.dropLast else l) ++
    ((t.splitOn (ch '\n')).getLast?).toList

/-- The objects of the lines that are not blank. -/
def lineObjects : List Text → Except ScanParseError (List Value)
  | [] => .ok []
  | raw :: rest =>
    if trim raw = [] then lineObjects rest
    else
      match parseJson raw with
      | .error _ => .error .invalidJson
      | .ok o => do
        let objects ← lineObjects rest
        return if isObj o then o :: objects else objects

def arrayFile (doc : List Value) : Except ScanParseError ScanFile :=
  let items := doc.filter isObj
  if items = [] then .ok (.gitleaks [])
  else if items.any fun i => hasKey i "RuleID" && (hasKey i "Secret" || hasKey i "Match") then
    .ok (.gitleaks items)
  else if items.any fun i => hasKey i "template-id" then .ok (.nuclei items)
  else .error .unknownFormat

def objectFile (doc : Value) : Except ScanParseError ScanFile :=
  let isList (v : Value) : Bool := match v with | .arr _ => true | _ => false
  if isList (prop doc "runs") && ((str (prop doc "version")).any (fun v => (js "2.").isPrefixOf v) ||
      hasKey doc "$schema") then .ok (.sarif doc)
  else if hasKey doc "SchemaVersion" && hasKey doc "Results" then .ok (.trivy doc)
  else if isList (prop doc "site") || hasKey doc "@programName" then .ok (.zap doc)
  else if isList (prop doc "results") &&
      (arr (prop doc "results")).any (fun r => isObj r && hasKey r "packages") then .ok (.osv doc)
  else .error .unknownFormat

def fileOf (text fileName : Text) : Except ScanParseError ScanFile :=
  let trimmed := trim text
  if trimmed = [] then .error .invalidJson
  else if (js ".jsonl").isSuffixOf fileName || startsWithLines trimmed then
    match lineObjects (linesOf trimmed) with
    | .ok lines =>
      if lines.any fun l => hasKey l "template-id" then .ok (.nuclei lines)
      else .error .unknownFormat
    | .error e => .error e
  else
    match parseJson trimmed with
    | .error _ => .error .invalidJson
    | .ok (.arr doc) => arrayFile doc
    | .ok doc => if isObj doc then objectFile doc else .error .unknownFormat

def parseFile : ScanFile → Except Exn ParsedScan
  | .sarif doc => parseSarif upper doc
  | .trivy doc => parseTrivy upper doc
  | .zap doc => parseZap upper doc
  | .osv doc => parseOsv upper doc
  | .nuclei lines => parseNuclei upper lines
  | .gitleaks items => .ok (parseGitleaks items)

/-- Outside is what JavaScript throws, inside what the function answers. -/
def parseScanFile (text fileName : Text) : Except Exn (Except ScanParseError ParsedScan) :=
  match fileOf text fileName with
  | .error e => .ok (.error e)
  | .ok file => do
    let scan ← parseFile upper file
    return .ok scan

/-- The objects that a file reports, in the order of its lists. -/
def ScanFile.objects : ScanFile → List ScanObject
  | .sarif doc => sarifObjects doc
  | .trivy doc => trivyObjects doc
  | .zap doc => zapObjects doc
  | .osv doc => osvObjects doc
  | .nuclei lines => lines.map .nucleiLine
  | .gitleaks items => items.map .gitleaksItem

end Readers

end Klick.Security
