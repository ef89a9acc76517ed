-- The import of a list of countries (`lib/compliance/aml.ts`, `parseJurisdictionCsv`). Its
-- reader of CSV knows quotes only around a whole cell; beside it stands that of `lib/csv.ts`.
import Klick.Csv

namespace Klick.Jurisdictions

open Js Csv

/-! ## Lines and cells -/

/-- `text.split(/\r?\n/)` from a place of the text on, with the line so far. -/
def splitLines : Text → Text → List Text
  | [], line => [line]
  | u :: t, line =>
    if u = ch '\n' then line :: splitLines t []
    else if u = ch '\r' then
      match t with
      | [] => splitLines [] (line ++ [u])
      | v :: t' =>
        if v = ch '\n' then line :: splitLines t' [] else splitLines (v :: t') (line ++ [u])
    else splitLines t (line ++ [u])

/-- The lines of a file, trimmed, without empty ones. -/
def trimmedLines (text : Text) : List Text :=
  ((splitLines text []).map trim).filter fun l => l ≠ []

/-- `replace(/^"|"$/g, "")` -/
def unquote (t : Text) : Text :=
  let t := if t.head? = some (ch '"') then t.tail else t
  if t.getLast? = some (ch '"') then t.dropLast else t

/-- `lines[0]?.includes(";") ? ";" : ","` -/
def sepOf (line : Text) : UInt16 := if ch ';' ∈ line then ch ';' else ch ','

/-- `line.split(sep).map((c) => c.trim().replace(/^"|"$/g, ""))` -/
def cellsOf (sep : UInt16) (line : Text) : List Text :=
  (line.splitOn sep).map fun c => unquote (trim c)

/-! ## Values -/

inductive FatfStatus
  | none | grey | black
deriving DecidableEq

def FatfStatus.text : FatfStatus → Text
  | .none => js "none"
  | .grey => js "grey"
  | .black => js "black"

/-- `FATF` -/
def fatf : List FatfStatus := [.none, .grey, .black]

inductive OrgStance
  | allowed | enhancedDd | blocked
deriving DecidableEq

def OrgStance.text : OrgStance → Text
  | .allowed => js "allowed"
  | .enhancedDd => js "enhanced_dd"
  | .blocked => js "blocked"

/-- `STANCE` -/
def stance : List OrgStance := [.allowed, .enhancedDd, .blocked]

inductive CorridorStatus
  | none | evaluating | pilot | active | suspended
deriving DecidableEq

def CorridorStatus.text : CorridorStatus → Text
  | .none => js "none"
  | .evaluating => js "evaluating"
  | .pilot => js "pilot"
  | .active => js "active"
  | .suspended => js "suspended"

/-- `CORRIDOR` -/
def corridor : List CorridorStatus := [.none, .evaluating, .pilot, .active, .suspended]

/-- The member of a list with a text. -/
def memberOf {α : Type} (all : List α) (text : α → Text) (t : Text) : Option α :=
  all.find? fun a => text a = t

/-- `CatalogJurisdiction` -/
structure CatalogJurisdiction where
  iso2 : Text
  name : Text
  euHighRisk : Bool
  fatfStatus : FatfStatus
  euSanctions : Bool
  usSanctions : Bool
  orgStance : OrgStance
  corridorStatus : CorridorStatus
  legalNotes : Option Text
deriving DecidableEq

/-- What is wrong with a line. -/
inductive LineError
  | iso2 (t : Text)
  | twice (code : Text)
  | fatfStatus (t : Text)
  | orgStance (t : Text)
  | corridorStatus (t : Text)

/-- The message about a line, by its number. -/
def LineError.message (n : ℕ) (e : LineError) : Text :=
  js "Zeile " ++ decimal n ++ js ": " ++
    match e with
    | .iso2 t => js "ungültiger ISO2-Code „" ++ t ++ js "“"
    | .twice code => code ++ js " doppelt"
    | .fatfStatus t => js "fatfStatus „" ++ t ++ js "“ unbekannt"
    | .orgStance t => js "orgStance „" ++ t ++ js "“ unbekannt"
    | .corridorStatus t => js "corridorStatus „" ++ t ++ js "“ unbekannt"

/-- `/^[A-Z]{2}$/` -/
def isIso2 (t : Text) : Bool := t.length = 2 && t.all fun u => 65 ≤ u.toNat && u.toNat ≤ 90

def trueWords : List Text := ["1", "true", "ja", "yes", "x", "wahr"].map js

def falseWords : List Text := ["0", "false", "nein", "no", "", "falsch"].map js

section Import

variable (lower upper : Text → Text)

/-- `bool`, which tells only for a recognised word. -/
def bool (v : Option Text) : Option Bool :=
  match v with
  | none => none
  | some v =>
    let s := lower (trim v)
    if s ∈ trueWords then some true else if s ∈ falseWords then some false else none

/-- The cell of a line under a name. -/
def get (header cells : List Text) (name : String) : Option Text :=
  match header.idxOf? (lower (js name)) with
  | some k => cells[k]?
  | none => none

/-- The code of the country of a line. -/
def iso2Of (header cells : List Text) : Text := upper ((get lower header cells "iso2").getD [])

/-- The checks of a line after that of its code, and its row. -/
def rowOf (header cells : List Text) (iso2 : Text) : Except LineError CatalogJurisdiction :=
  let fatfText := lower ((get lower header cells "fatfStatus").getD (js "none"))
  let stanceText := lower ((get lower header cells "orgStance").getD (js "allowed"))
  let corridorText := lower ((get lower header cells "corridorStatus").getD (js "none"))
  match memberOf fatf FatfStatus.text fatfText with
  | none => .error (.fatfStatus fatfText)
  | some fatfStatus =>
    match memberOf stance OrgStance.text stanceText with
    | none => .error (.orgStance stanceText)
    | some orgStance =>
      match memberOf corridor CorridorStatus.text corridorText with
      | none => .error (.corridorStatus corridorText)
      | some corridorStatus =>
        let name := (get lower header cells "name").getD []
        let legalNotes := (get lower header cells "legalNotes").getD []
        .ok
          { iso2
            name := if name = [] then iso2 else name
            euHighRisk := (bool lower (get lower header cells "euHighRisk")).getD false
            fatfStatus
            euSanctions := (bool lower (get lower header cells "euSanctions")).getD false
            usSanctions := (bool lower (get lower header cells "usSanctions")).getD false
            orgStance
            corridorStatus
            legalNotes := if legalNotes = [] then none else some legalNotes }

/-- The loop over the lines: what becomes of each, and the countries seen before it. -/
def importLines (header : List Text) :
    List Text → List (List Text) → List (Except LineError CatalogJurisdiction)
  | _, [] => []
  | seen, cells :: lines =>
    let iso2 := iso2Of lower upper header cells
    if !isIso2 iso2 then .error (.iso2 iso2) :: importLines header seen lines
    else if iso2 ∈ seen then .error (.twice iso2) :: importLines header seen lines
    else rowOf lower header cells iso2 :: importLines header (iso2 :: seen) lines

structure JurisdictionCsvResult where
  rows : List CatalogJurisdiction
  errors : List Text

/-- The names of the columns, in lower case. -/
def headerOf (line : Text) : List Text := (cellsOf (sepOf line) line).map lower

/-- What becomes of the lines after the header. -/
def outcomes : List Text → List (Except LineError CatalogJurisdiction)
  | [] => []
  | first :: lines =>
    importLines lower upper (headerOf lower first) [] (lines.map (cellsOf (sepOf first)))

def parseJurisdictionCsv (text : Text) : JurisdictionCsvResult :=
  let lines := trimmedLines text
  match lines with
  | [] => ⟨[], [js "leer"]⟩
  | first :: _ =>
    if js "iso2" ∉ headerOf lower first then ⟨[], [js "Kopfzeile ohne Spalte iso2"]⟩
    else
      { rows := (outcomes lower upper lines).filterMap Except.toOption
        errors := ((outcomes lower upper lines).zipIdx 2).filterMap fun p =>
          match p.1 with
          | .ok _ => none
          | .error e => some (e.message p.2) }

end Import

/-! ## What a faithful import is -/

/-- The records of a file as `parseCsv` reads them, trimmed. -/
def records (text : Text) : List (List Text) :=
  (splitRecords (separator (firstLine (clean text))) (clean text) false [] []).map (·.map trim)

/-- Those of its data, without those of empty lines. -/
def dataRecords (text : Text) : List (List Text) := (records text).tail.filter fun r => r ≠ [[]]

/-- What holds of each cell, and what where there is none. -/
def Each (cells : List Text) (p : Text → Prop) (absent : Prop) : Prop :=
  (∀ c ∈ cells, p c) ∧ (cells = [] → absent)

section Faithful

variable (lower upper : Text → Text)

/-- The cells of a record under a name. -/
def under (header record : List Text) (name : String) : List Text :=
  ((header.zip record).filter fun p => lower p.1 = lower (js name)).map Prod.snd

/-- A row has exactly the values of the cells of a record. -/
structure Exact (header record : List Text) (row : CatalogJurisdiction) : Prop where
  iso2 : Each (under lower header record "iso2") (fun c => row.iso2 = upper c)
    (row.iso2 = upper [])
  name : Each (under lower header record "name")
    (fun c => row.name = if c = [] then row.iso2 else c) (row.name = row.iso2)
  euHighRisk : Each (under lower header record "euHighRisk")
    (fun c => bool lower (some c) = some row.euHighRisk) (row.euHighRisk = false)
  fatfStatus : Each (under lower header record "fatfStatus")
    (fun c => row.fatfStatus.text = lower c) (row.fatfStatus.text = lower (js "none"))
  euSanctions : Each (under lower header record "euSanctions")
    (fun c => bool lower (some c) = some row.euSanctions) (row.euSanctions = false)
  usSanctions : Each (under lower header record "usSanctions")
    (fun c => bool lower (some c) = some row.usSanctions) (row.usSanctions = false)
  orgStance : Each (under lower header record "orgStance")
    (fun c => row.orgStance.text = lower c) (row.orgStance.text = lower (js "allowed"))
  corridorStatus : Each (under lower header record "corridorStatus")
    (fun c => row.corridorStatus.text = lower c) (row.corridorStatus.text = lower (js "none"))
  legalNotes : Each (under lower header record "legalNotes")
    (fun c => row.legalNotes = if c = [] then none else some c) (row.legalNotes = none)

/-- Each line of data is imported with exactly the values of its cells or reported, and no two
rows share a country. -/
def Faithful (text : Text) : Prop :=
  List.Forall₂ (fun record o => ∀ row, o = .ok row →
      Exact lower upper ((records text).head?.getD []) record row)
    (dataRecords text) (outcomes lower upper (trimmedLines text)) ∧
  ((parseJurisdictionCsv lower upper text).rows.map (·.iso2)).Nodup

/-- The checks of a line, but for its flags. -/
structure Checked (header cells : List Text) : Prop where
  iso2 : isIso2 (iso2Of lower upper header cells) = true
  fatfStatus : ∃ a, memberOf fatf FatfStatus.text
    (lower ((get lower header cells "fatfStatus").getD (js "none"))) = some a
  orgStance : ∃ a, memberOf stance OrgStance.text
    (lower ((get lower header cells "orgStance").getD (js "allowed"))) = some a
  corridorStatus : ∃ a, memberOf corridor CorridorStatus.text
    (lower ((get lower header cells "corridorStatus").getD (js "none"))) = some a

def flagNames : List String := ["euHighRisk", "euSanctions", "usSanctions"]

/-- Each flag of a line is a recognised word. -/
def Known (header cells : List Text) : Prop :=
  ∀ name ∈ flagNames, ∀ c ∈ under lower header cells name, bool lower (some c) ≠ none

/-- Each flag is a recognised word in every line that passes its other checks and is the first
of its country, but for some countries. -/
def FlagsKnown (header : List Text) (seen : List Text) (lines : List (List Text)) : Prop :=
  ∀ before cells after, lines = before ++ cells :: after →
    Checked lower upper (header.map lower) cells →
    iso2Of lower upper (header.map lower) cells ∉ seen →
    (∀ l ∈ before, iso2Of lower upper (header.map lower) l ≠
      iso2Of lower upper (header.map lower) cells) → Known lower header cells

end Faithful

/-! ## One line -/

section Lines

variable {lower upper : Text → Text}

theorem each_toList {o : Option Text} {p : Text → Prop} {absent : Prop} :
    Each o.toList p absent ↔ (∀ c, o = some c → p c) ∧ (o = none → absent) := by
  unfold Each
  cases o with
  | none => simp
  | some c => simp

/-- Where a name stands once in the header, the one cell under it is that which is read. -/
theorem under_eq {header : List Text} {name : String}
    (h : (header.map lower).count (lower (js name)) ≤ 1) (cells : List Text) :
    under lower header cells name = (get lower (header.map lower) cells name).toList := by
  induction header generalizing cells with
  | nil => rfl
  | cons col header ih =>
    rw [List.map_cons, List.count_cons] at h
    cases cells with
    | nil =>
      unfold under get
      rw [List.zip_nil_right]
      cases ((col :: header).map lower).idxOf? (lower (js name)) <;> rfl
    | cons c cells =>
      by_cases hcol : lower col = lower (js name)
      · have hrest : (header.map lower).count (lower (js name)) = 0 := by
          rw [if_pos (beq_iff_eq.mpr hcol)] at h
          omega
        have hnone : ((header.zip cells).filter fun p => lower p.1 = lower (js name)) = [] := by
          apply List.filter_eq_nil_iff.mpr
          intro p hp hname
          have hmem : lower (js name) ∈ header.map lower := by
            rw [← of_decide_eq_true hname]
            exact List.mem_map_of_mem (List.of_mem_zip hp).1
          exact List.count_eq_zero.mp hrest hmem
        unfold under get
        rw [List.zip_cons_cons, List.filter_cons_of_pos (by simpa using hcol), hnone,
          List.map_cons, List.map_cons, List.idxOf?_cons, if_pos (beq_iff_eq.mpr hcol)]
        rfl
      · have ih := ih (by
          rw [if_neg (by simpa using hcol)] at h
          exact h) cells
        unfold under get at ih ⊢
        rw [List.zip_cons_cons, List.filter_cons_of_neg (by simpa using hcol), ih, List.map_cons,
          List.idxOf?_cons, if_neg (by simpa using hcol)]
        cases (header.map lower).idxOf? (lower (js name)) <;> rfl

theorem memberOf_eq_some {α : Type} {all : List α} {text : α → Text} {t : Text} {a : α}
    (h : memberOf all text t = some a) : text a = t := by
  simpa using List.find?_some h

/-- The flag of a cell is what the cell says exactly where it is a recognised word. -/
theorem flag_iff {o : Option Text} :
    Each o.toList (fun c => bool lower (some c) = some ((bool lower o).getD false))
        ((bool lower o).getD false = false) ↔ ∀ c ∈ o.toList, bool lower (some c) ≠ none := by
  rw [each_toList]
  cases o with
  | none => simp [bool]
  | some c =>
    cases h : bool lower (some c) with
    | none => simp [h]
    | some b => simp [h]

def columnNames : List String := ["iso2", "name", "euHighRisk", "fatfStatus", "euSanctions",
  "usSanctions", "orgStance", "corridorStatus", "legalNotes"]

/-- No column stands twice in a header. -/
def Once (lower : Text → Text) (header : List Text) : Prop :=
  ∀ name ∈ columnNames, (header.map lower).count (lower (js name)) ≤ 1

/-- The row of a line has exactly its values where its flags are recognised words. -/
theorem exact_rowOf {header cells : List Text} (honce : Once lower header)
    {row : CatalogJurisdiction}
    (hrow : rowOf lower (header.map lower) cells (iso2Of lower upper (header.map lower) cells) =
      .ok row) : Exact lower upper header cells row ↔ Known lower header cells := by
  have hunder : ∀ name ∈ columnNames, under lower header cells name =
      (get lower (header.map lower) cells name).toList := fun name hname =>
    under_eq (honce name hname) cells
  simp only [columnNames, List.forall_mem_cons] at hunder
  obtain ⟨hiso2, hname, hrisk, hfatf, heu, hus, hstance, hcorridor, hnotes, -⟩ := hunder
  unfold rowOf at hrow
  dsimp only at hrow
  split at hrow
  · cases hrow
  rename_i fatfStatus hf
  split at hrow
  · cases hrow
  rename_i orgStance hs
  split at hrow
  · cases hrow
  rename_i corridorStatus hc
  obtain rfl := Except.ok.inj hrow
  have hknown : Known lower header cells ↔
      (∀ c ∈ under lower header cells "euHighRisk", bool lower (some c) ≠ none) ∧
      (∀ c ∈ under lower header cells "euSanctions", bool lower (some c) ≠ none) ∧
      ∀ c ∈ under lower header cells "usSanctions", bool lower (some c) ≠ none := by
    simp [Known, flagNames]
  rw [hknown, hrisk, heu, hus, ← flag_iff, ← flag_iff, ← flag_iff]
  constructor
  · rintro ⟨-, -, h1, -, h2, h3, -, -, -⟩
    rw [hrisk] at h1
    rw [heu] at h2
    rw [hus] at h3
    exact ⟨h1, h2, h3⟩
  · rintro ⟨h1, h2, h3⟩
    refine ⟨?_, ?_, by rw [hrisk]; exact h1, ?_, by rw [heu]; exact h2, by rw [hus]; exact h3,
      ?_, ?_, ?_⟩
    · rw [hiso2, each_toList]
      unfold iso2Of
      refine ⟨fun c hget => by rw [hget]; rfl, fun hget => by rw [hget]; rfl⟩
    · rw [hname, each_toList]
      refine ⟨fun c hget => by rw [hget]; rfl, fun hget => by rw [hget]; rfl⟩
    · rw [hfatf, each_toList]
      refine ⟨fun c hget => ?_, fun hget => ?_⟩ <;>
      · rw [hget] at hf
        exact memberOf_eq_some hf
    · rw [hstance, each_toList]
      refine ⟨fun c hget => ?_, fun hget => ?_⟩ <;>
      · rw [hget] at hs
        exact memberOf_eq_some hs
    · rw [hcorridor, each_toList]
      refine ⟨fun c hget => ?_, fun hget => ?_⟩ <;>
      · rw [hget] at hc
        exact memberOf_eq_some hc
    · rw [hnotes, each_toList]
      refine ⟨fun c hget => by rw [hget]; rfl, fun hget => by rw [hget]; rfl⟩

end Lines

/-! ## The lines of a file -/

section Loop

variable {lower upper : Text → Text}

theorem exists_rowOf {header cells : List Text} (h : Checked lower upper header cells) :
    ∃ row, rowOf lower header cells (iso2Of lower upper header cells) = .ok row := by
  obtain ⟨-, ⟨a, ha⟩, ⟨b, hb⟩, c, hc⟩ := h
  unfold rowOf
  dsimp only
  rw [ha, hb, hc]
  exact ⟨_, rfl⟩

theorem checked_of_rowOf {header cells : List Text}
    (hiso : isIso2 (iso2Of lower upper header cells) = true) {row : CatalogJurisdiction}
    (h : rowOf lower header cells (iso2Of lower upper header cells) = .ok row) :
    Checked lower upper header cells := by
  unfold rowOf at h
  dsimp only at h
  split at h
  · cases h
  rename_i a ha
  split at h
  · cases h
  rename_i b hb
  split at h
  · cases h
  rename_i c hc
  exact ⟨hiso, ⟨a, ha⟩, ⟨b, hb⟩, c, hc⟩

theorem iso2_rowOf {header cells : List Text} {iso2 : Text} {row : CatalogJurisdiction}
    (h : rowOf lower header cells iso2 = .ok row) : row.iso2 = iso2 := by
  unfold rowOf at h
  dsimp only at h
  split at h
  · cases h
  split at h
  · cases h
  split at h
  · cases h
  rw [← Except.ok.inj h]

/-- The flags of the lines after a first one. -/
theorem flagsKnown_cons {header seen : List Text} {cells : List Text} {lines : List (List Text)} :
    FlagsKnown lower upper header seen (cells :: lines) ↔
      (Checked lower upper (header.map lower) cells →
        iso2Of lower upper (header.map lower) cells ∉ seen → Known lower header cells) ∧
      FlagsKnown lower upper header
        (iso2Of lower upper (header.map lower) cells :: seen) lines := by
  constructor
  · intro h
    refine ⟨fun hc hs => h [] cells lines rfl hc hs fun l hl => absurd hl List.not_mem_nil, ?_⟩
    rintro before line after rfl hc hs hbefore
    rw [List.mem_cons, not_or] at hs
    refine h (cells :: before) line after rfl hc hs.2 fun l hl => ?_
    rcases List.mem_cons.mp hl with rfl | hl
    · exact Ne.symm hs.1
    · exact hbefore l hl
  · rintro ⟨hfirst, hrest⟩ before line after heq hc hs hbefore
    cases before with
    | nil =>
      obtain ⟨rfl, rfl⟩ := List.cons.inj heq
      exact hfirst hc hs
    | cons l before =>
      obtain ⟨rfl, rfl⟩ := List.cons.inj heq
      refine hrest before line after rfl hc ?_ fun l hl => hbefore l (List.mem_cons_of_mem _ hl)
      rw [List.mem_cons, not_or]
      exact ⟨Ne.symm (hbefore _ List.mem_cons_self), hs⟩

/-- A country that no line can have does not count as seen. -/
theorem flagsKnown_seen {header seen : List Text} {lines : List (List Text)} {code : Text}
    (h : isIso2 code = false ∨ code ∈ seen) :
    FlagsKnown lower upper header (code :: seen) lines ↔
      FlagsKnown lower upper header seen lines := by
  have hsame {cells : List Text} (hc : Checked lower upper (header.map lower) cells) :
      iso2Of lower upper (header.map lower) cells ∉ code :: seen ↔
        iso2Of lower upper (header.map lower) cells ∉ seen := by
    rw [List.mem_cons, not_or]
    refine ⟨fun hs => hs.2, fun hs => ⟨?_, hs⟩⟩
    rintro rfl
    rcases h with hiso | hmem
    · rw [hc.iso2] at hiso
      cases hiso
    · exact hs hmem
  constructor
  · intro hk before line after heq hc hs hbefore
    exact hk before line after heq hc ((hsame hc).mpr hs) hbefore
  · intro hk before line after heq hc hs hbefore
    exact hk before line after heq hc ((hsame hc).mp hs) hbefore

/-- The lines are imported with exactly their values where their flags are recognised words. -/
theorem importLines_exact {header : List Text} (honce : Once lower header)
    (seen : List Text) (lines : List (List Text)) :
    List.Forall₂ (fun record o => ∀ row, o = .ok row → Exact lower upper header record row) lines
        (importLines lower upper (header.map lower) seen lines) ↔
      FlagsKnown lower upper header seen lines := by
  induction lines generalizing seen with
  | nil =>
    refine ⟨fun _ before line after heq => ?_, fun _ => .nil⟩
    cases before <;> cases heq
  | cons cells lines ih =>
    rw [flagsKnown_cons]
    unfold importLines
    dsimp only
    by_cases hiso : isIso2 (iso2Of lower upper (header.map lower) cells) = true
    · rw [hiso]
      by_cases hseen : iso2Of lower upper (header.map lower) cells ∈ seen
      · rw [if_neg (by simp), if_pos hseen, List.forall₂_cons, ih, flagsKnown_seen (.inr hseen)]
        refine and_congr_left fun _ => ?_
        exact ⟨fun _ _ hs => absurd hseen hs, fun _ row hrow => by cases hrow⟩
      · rw [if_neg (by simp), if_neg hseen, List.forall₂_cons, ih]
        refine and_congr_left fun _ => ⟨fun h hc _ => ?_, fun h row hrow => ?_⟩
        · obtain ⟨row, hrow⟩ := exists_rowOf hc
          exact (exact_rowOf honce hrow).mp (h row hrow)
        · exact (exact_rowOf honce hrow).mpr (h (checked_of_rowOf hiso hrow) hseen)
    · rw [if_pos (by simpa using hiso), List.forall₂_cons, ih,
        flagsKnown_seen (.inl (Bool.eq_false_of_not_eq_true hiso))]
      refine and_congr_left fun _ => ?_
      exact ⟨fun _ hc => absurd hc.iso2 hiso, fun _ row hrow => by cases hrow⟩

/-- No two rows share a country, and none has one that was seen before. -/
theorem importLines_distinct (header : List Text) (seen : List Text) (lines : List (List Text)) :
    (((importLines lower upper header seen lines).filterMap Except.toOption).map (·.iso2)).Nodup ∧
      ∀ row ∈ (importLines lower upper header seen lines).filterMap Except.toOption,
        row.iso2 ∉ seen := by
  induction lines generalizing seen with
  | nil => exact ⟨.nil, fun row hrow => absurd hrow List.not_mem_nil⟩
  | cons cells lines ih =>
    unfold importLines
    dsimp only
    split
    · exact ih seen
    split
    · exact ih seen
    rename_i hseen
    obtain ⟨hnodup, hnew⟩ := ih (iso2Of lower upper header cells :: seen)
    cases hrow : rowOf lower header cells (iso2Of lower upper header cells) with
    | error e => exact ⟨hnodup, fun row hr hs => hnew row hr (List.mem_cons_of_mem _ hs)⟩
    | ok row =>
      rw [List.filterMap_cons_some (show Except.toOption (.ok row) = some row from rfl)]
      have hcode := iso2_rowOf hrow
      refine ⟨List.nodup_cons.mpr ⟨?_, hnodup⟩, ?_⟩
      · intro hmem
        obtain ⟨r, hr, heq⟩ := List.mem_map.mp hmem
        have hsame : r.iso2 = iso2Of lower upper header cells := (show r.iso2 = row.iso2 from heq).trans hcode
        exact hnew r hr (hsame ▸ List.mem_cons_self)
      · intro r hr
        rcases List.mem_cons.mp hr with rfl | hr
        · rw [hcode]
          exact hseen
        · exact fun hs => hnew r hr (List.mem_cons_of_mem _ hs)

/-- No two imported rows share a country. -/
theorem rows_distinct (text : Text) :
    ((parseJurisdictionCsv lower upper text).rows.map (·.iso2)).Nodup := by
  unfold parseJurisdictionCsv
  dsimp only
  split
  · exact List.nodup_nil
  split
  · exact List.nodup_nil
  · rename_i first rest hlines _
    rw [hlines]
    exact (importLines_distinct _ _ _).1

end Loop

end Klick.Jurisdictions
