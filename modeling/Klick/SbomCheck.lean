-- The check of a software bill of materials (`lib/security/sbom-check.ts`): a CycloneDX
-- or SPDX document is read into its components, and the summary says what is missing.
import Klick.Binary64
import Klick.ScanValues

namespace Klick.Sbom

open Js Security

/-! ## Documents -/

inductive SbomFormat where
  | cyclonedx
  | spdx
deriving DecidableEq, Repr

structure SbomComponent where
  name : Text
  version : Bool
  identifier : Bool
  license : Bool
  hash : Bool
  supplier : Bool
deriving DecidableEq

structure ParsedSbom where
  format : SbomFormat
  specVersion : Option Text
  generatedAt : Option Text
  creator : Bool
  primaryComponent : Option Text
  components : List SbomComponent
  dependencies : Bool

inductive SbomParseError where
  | invalidJson
  | unknownFormat
  | unsupportedVersion
deriving DecidableEq, Repr

/-- `MAX_COMPONENTS` -/
def maxComponents : ℕ := 200000

/-- `MAX_DEPTH` -/
def maxDepth : ℕ := 16

/-- A statement that is more than `NOASSERTION` or `NONE`. -/
def assertion (v : Value) : Option Text :=
  (str v).filter fun s => s ≠ js "NOASSERTION" && s ≠ js "NONE"

/-- The texts that are there, with a space between them. -/
def joined (texts : List (Option Text)) : Text := join (ch ' ') (texts.filterMap id)

/-! ## CycloneDX -/

def cycloneLicense (l : Value) : Bool :=
  isObj l && ((str (prop l "expression")).isSome ||
    (strIn (prop l "license") "id").isSome || (strIn (prop l "license") "name").isSome)

def cycloneComponent (c : Value) : SbomComponent where
  name := (str (prop c "name")).getD (js "?")
  version := (str (prop c "version")).isSome
  identifier := (str (prop c "purl")).isSome || (str (prop c "cpe")).isSome ||
    (strIn (prop c "swid") "tagId").isSome
  license := (arr (prop c "licenses")).any cycloneLicense
  hash := (arr (prop c "hashes")).any fun h => (strIn h "content").isSome
  supplier := (strIn (prop c "supplier") "name").isSome || (str (prop c "author")).isSome ||
    (str (prop c "publisher")).isSome || (strIn (prop c "manufacturer") "name").isSome

/-- `walk`, with the levels that are left: a full list stays as it is. -/
def walk : ℕ → List Value → List SbomComponent → List SbomComponent
  | 0, _, out => out
  | levels + 1, list, out =>
    list.foldl (fun out c =>
      if maxComponents ≤ out.length then out
      else if isObj c then walk levels (arr (prop c "components")) (out ++ [cycloneComponent c])
      else out) out

/-- The object in a field, or an empty one. -/
def objOr (v : Value) : Value := if isObj v then v else .obj []

def cyclonePrimary (component : Value) : Option Text :=
  if isObj component then
    let text := joined [str (prop component "name"), str (prop component "version")]
    if text = [] then none else some text
  else none

def cycloneCreator (doc : Value) : Bool :=
  let metadata := objOr (prop doc "metadata")
  let tools := prop metadata "tools"
  arr (prop metadata "authors") ≠ [] || (strIn (prop metadata "manufacturer") "name").isSome ||
    (strIn (prop metadata "manufacture") "name").isSome ||
    (strIn (prop metadata "supplier") "name").isSome || arr tools ≠ [] ||
    (isObj tools && arr (prop tools "components") ≠ [])

def cycloneCreated (doc : Value) : Option Text :=
  str (prop (objOr (prop doc "metadata")) "timestamp")

def cycloneDependencies (doc : Value) : Bool :=
  (arr (prop doc "dependencies")).any fun d => isObj d && arr (prop d "dependsOn") ≠ []

def parseCycloneDx (doc : Value) : ParsedSbom where
  format := .cyclonedx
  specVersion := str (prop doc "specVersion")
  generatedAt := cycloneCreated doc
  creator := cycloneCreator doc
  primaryComponent := cyclonePrimary (prop (objOr (prop doc "metadata")) "component")
  components := walk (maxDepth + 1) (arr (prop doc "components")) []
  dependencies := cycloneDependencies doc

/-! ## SPDX -/

/-- Whether one of the references identifies the package; the first that does ends the search. -/
def identifies : List Value → Except Exn Bool
  | [] => .ok false
  | r :: refs => do
    if isObj r then
      let kind ← (prop r "referenceType").toText
      if kind ∈ ["purl", "cpe22Type", "cpe23Type", "swid"].map js ∧
          (str (prop r "referenceLocator")).isSome then return true
      else identifies refs
    else identifies refs

def spdxComponent (p : Value) (identifier : Bool) : SbomComponent where
  name := (str (prop p "name")).getD (js "?")
  version := (str (prop p "versionInfo")).isSome
  identifier
  license := (assertion (prop p "licenseConcluded")).isSome ||
    (assertion (prop p "licenseDeclared")).isSome
  hash := (arr (prop p "checksums")).any fun c => (strIn c "checksumValue").isSome
  supplier := (assertion (prop p "supplier")).isSome || (assertion (prop p "originator")).isSome

/-- The packages one after the other, with the one that the document describes. -/
def packages (describes : List Text) :
    List Value → Option Text → List SbomComponent → Except Exn (Option Text × List SbomComponent)
  | [], primary, out => .ok (primary, out)
  | p :: rest, primary, out =>
    if maxComponents ≤ out.length then .ok (primary, out)
    else if isObj p then do
      let name := (str (prop p "name")).getD (js "?")
      let described := (textOf (prop p "SPDXID")).any fun id => describes.contains id
      let primary := if described && primary.isNone then
          some (joined [some name, str (prop p "versionInfo")])
        else primary
      let identifier ← identifies (arr (prop p "externalRefs"))
      packages describes rest primary (out ++ [spdxComponent p identifier])
    else packages describes rest primary out

def relationships (doc : Value) : List Value := (arr (prop doc "relationships")).filter isObj

/-- What the document describes, by its list and by its relationships. -/
def describes (doc : Value) : List Text :=
  (arr (prop doc "documentDescribes")).filterMap textOf ++
    (relationships doc).filterMap fun r =>
      if textOf (prop r "relationshipType") = some (js "DESCRIBES") then
        textOf (prop r "relatedSpdxElement")
      else none

def spdxCreated (doc : Value) : Option Text :=
  str (prop (objOr (prop doc "creationInfo")) "created")

def spdxDependencies (doc : Value) : Bool :=
  (relationships doc).any fun r =>
    (textOf (prop r "relationshipType")).any fun t =>
      t ∈ ["DEPENDS_ON", "DEPENDENCY_OF", "CONTAINS"].map js

/-- A text without `SPDX-` before it. -/
def specOf (t : Text) : Text := if (js "SPDX-").isPrefixOf t then t.drop 5 else t

def parseSpdx (doc : Value) : Except Exn ParsedSbom := do
  let (primary, out) ← packages (describes doc) (arr (prop doc "packages")) none []
  return {
    format := .spdx
    specVersion := (str (prop doc "spdxVersion")).map specOf
    generatedAt := spdxCreated doc
    creator := arr (prop (objOr (prop doc "creationInfo")) "creators") ≠ []
    primaryComponent := primary
    components := out
    dependencies := spdxDependencies doc }

/-! ## Reading a document -/

/-- The format that a document has, and the versions that can be read. -/
def formatOf (doc : Value) : Except SbomParseError SbomFormat :=
  if !isObj doc then .error .unknownFormat
  else if textOf (prop doc "bomFormat") = some (js "CycloneDX") then .ok .cyclonedx
  else match textOf (prop doc "spdxVersion") with
    | some version =>
      if (js "SPDX-2").isPrefixOf version then .ok .spdx else .error .unsupportedVersion
    | none => if hasKey doc "@context" then .error .unsupportedVersion else .error .unknownFormat

/-- Outside is what JavaScript throws, inside what the function answers. -/
def parseDocument (doc : Value) : Except Exn (Except SbomParseError ParsedSbom) :=
  match formatOf doc with
  | .ok .cyclonedx => .ok (.ok (parseCycloneDx doc))
  | .ok .spdx => do
    let sbom ← parseSpdx doc
    return .ok sbom
  | .error e => .ok (.error e)

def parseSbom (text : Text) : Except Exn (Except SbomParseError ParsedSbom) :=
  match parseJson text with
  | .ok doc => parseDocument doc
  | .error _ => .ok (.error .invalidJson)

/-! ## The summary -/

/-- `Number.parseInt(x, 10) || 0` -/
def leadingInt (x : Text) : ℤ :=
  let t := x.dropWhile isTrimmed
  let negative := t.head? = some (ch '-')
  let t := if negative || t.head? = some (ch '+') then t.tail else t
  let n : ℤ := natOf (t.takeWhile isDigit)
  if negative then -n else n

/-- The parts in order, and a part that is missing as 0. -/
def partsAtLeast : List ℤ → List ℤ → Bool
  | _, [] => true
  | parts, least :: rest =>
    let a := parts.headD 0
    if a ≠ least then least < a else partsAtLeast parts.tail rest

def versionAtLeast (v : Option Text) (least : List ℤ) : Bool :=
  match v with
  | some t => t ≠ [] && partsAtLeast ((t.splitOn (ch '.')).map leadingInt) least
  | none => false

def pct (n total : ℕ) : ℤ := if total = 0 then 0 else mathRound (fl (fl (n / total) * 100))

structure Fields where
  version : ℤ
  identifier : ℤ
  license : ℤ
  hash : ℤ
  supplier : ℤ
deriving DecidableEq

structure SbomSummary where
  format : SbomFormat
  specVersion : Option Text
  generatedAt : Option Text
  primaryComponent : Option Text
  components : ℕ
  fields : Fields
  dependencies : Bool
  issues : List Text
  ok : Bool
  checkedAt : Text

def fieldsOf (components : List SbomComponent) : Fields :=
  let n := components.length
  { version := pct (components.countP (·.version)) n
    identifier := pct (components.countP (·.identifier)) n
    license := pct (components.countP (·.license)) n
    hash := pct (components.countP (·.hash)) n
    supplier := pct (components.countP (·.supplier)) n }

/-- A sentence with a percentage in it. -/
def withPercent (before : String) (share : ℤ) (after : String) : Text :=
  js before ++ decimal share.toNat ++ js after

def noteIf (p : Bool) (note : Text) : List Text := if p then [note] else []

/-- What blocks a document. -/
def blocking (sbom : ParsedSbom) : List Text :=
  let n := sbom.components.length
  let fields := fieldsOf sbom.components
  noteIf (n = 0) (js "Keine Komponenten enthalten") ++
  noteIf sbom.generatedAt.isNone (js "Kein Erstellungszeitpunkt") ++
  noteIf (0 < n && fields.version < 90)
    (withPercent "Version nur bei " fields.version " % der Komponenten") ++
  noteIf (0 < n && fields.identifier < 90)
    (withPercent "Eindeutige Kennung (purl/CPE) nur bei " fields.identifier
      " % der Komponenten") ++
  noteIf (1 < n && !sbom.dependencies) (js "Keine Abhängigkeitsbeziehungen")

/-- What is only said. -/
def hints (sbom : ParsedSbom) : List Text :=
  let n := sbom.components.length
  let fields := fieldsOf sbom.components
  noteIf (0 < n && fields.license < 80)
    (withPercent "Lizenz nur bei " fields.license " % der Komponenten") ++
  noteIf (0 < n && fields.hash < 80)
    (withPercent "Hash nur bei " fields.hash " % der Komponenten (TR-03183-2: SHA-512)") ++
  noteIf (0 < n && fields.supplier < 80)
    (withPercent "Hersteller/Lieferant nur bei " fields.supplier " % der Komponenten") ++
  noteIf (!sbom.creator) (js "Ersteller der SBOM nicht angegeben") ++
  noteIf (!versionAtLeast sbom.specVersion
      (match sbom.format with | .cyclonedx => [1, 5] | .spdx => [2, 2, 1]))
    (js "Formatversion " ++ sbom.specVersion.getD (js "?") ++ js " älter als " ++
      match sbom.format with | .cyclonedx => js "CycloneDX 1.5" | .spdx => js "SPDX 2.2.1")

/-- The summary of a document; `now` as `toISOString` writes it. -/
def checkSbom (sbom : ParsedSbom) (now : Text) : SbomSummary where
  format := sbom.format
  specVersion := sbom.specVersion
  generatedAt := sbom.generatedAt
  primaryComponent := sbom.primaryComponent
  components := sbom.components.length
  fields := fieldsOf sbom.components
  dependencies := sbom.dependencies
  issues := blocking sbom ++ hints sbom
  ok := (blocking sbom).isEmpty
  checkedAt := now

end Klick.Sbom
