-- CSV (`lib/csv.ts`): the reader of the registers' imports and the writer of the exports. Cells
-- are quoted where they need it, and no cell of an export starts a formula.
import Klick.LowerCase
import Klick.OrderedMap

namespace Klick.Csv

open Js

/-! ## Reading -/

/-- The loop of `splitRecords` from a place of the text on: whether it stands inside quotes, the
cells of the row so far, and the cell so far. -/
def splitRecords (sep : UInt16) : Text → Bool → List Text → Text → List (List Text)
  | [], _, row, cell => if cell.length > 0 ∨ row.length > 0 then [row ++ [cell]] else []
  | u :: t, true, row, cell =>
    if u = ch '"' then
      match t with
      | [] => splitRecords sep [] false row cell
      | v :: t' =>
        if v = ch '"' then splitRecords sep t' true row (cell ++ [ch '"'])
        else splitRecords sep (v :: t') false row cell
    else splitRecords sep t true row (cell ++ [u])
  | u :: t, false, row, cell =>
    if u = ch '"' then splitRecords sep t true row cell
    else if u = sep then splitRecords sep t false (row ++ [cell]) []
    else if u = ch '\n' then (row ++ [cell]) :: splitRecords sep t false [] []
    else if u = ch '\r' then
      match t with
      | [] => (row ++ [cell]) :: splitRecords sep [] false [] []
      | v :: t' =>
        if v = ch '\n' then (row ++ [cell]) :: splitRecords sep t' false [] []
        else (row ++ [cell]) :: splitRecords sep (v :: t') false [] []
    else splitRecords sep t false row (cell ++ [u])

/-- The byte order mark -/
def bom : UInt16 := 0xfeff

/-- `text.replace(/^﻿/, "")` -/
def clean : Text → Text
  | [] => []
  | u :: t => if u = bom then t else u :: t

/-- `clean.split(/\r?\n/, 1)[0]` -/
def firstLine (t : Text) : Text :=
  let line := t.takeWhile (· ≠ ch '\n')
  if line.length < t.length ∧ line.getLast? = some (ch '\r') then line.dropLast else line

/-- The separator of which the first line has more; `;` where it has as many. -/
def separator (line : Text) : UInt16 :=
  if line.count (ch ';') ≥ line.count (ch ',') then ch ';' else ch ','

def isBlank (cell : Text) : Bool := trim cell = []

/-- `row[h] = value`: an object takes no text as its prototype. -/
def assign (row : OrderedMap Text Text) (h value : Text) : OrderedMap Text Text :=
  if h = js "__proto__" then row else row.set h value

/-- A record as an object of its columns; that of the organisation is left out. -/
def rowOf (lower : Text → Text) (header : List Text) (rec_ : List Text) : OrderedMap Text Text :=
  header.zipIdx.foldl
    (fun row p =>
      if p.1 = [] ∨ lower p.1 = js "organization_id" then row
      else assign row p.1 (trim ((rec_[p.2]?).getD [])))
    OrderedMap.empty

structure CsvTable where
  sep : UInt16
  header : List Text
  rows : List (OrderedMap Text Text)

/-- `parseCsv`; `lower` is `toLowerCase`. -/
def parseCsv (lower : Text → Text) (text : Text) : CsvTable :=
  let clean := clean text
  let sep := separator (firstLine clean)
  let records := splitRecords sep clean false [] []
  let header := (records.head?.getD []).map trim
  { sep
    header := header.filter fun h => lower h ≠ js "organization_id"
    rows := (records.tail.filter fun rec_ => !rec_.all isBlank).map (rowOf lower header) }

/-! ## Writing -/

/-- `/^[=+\-@\t\r]/` -/
def startsFormula : Text → Bool
  | [] => false
  | u :: _ => u ∈ [ch '=', ch '+', ch '-', ch '@', ch '\t', ch '\r']

/-- The text of a value with an apostrophe in front of a formula. -/
def safe (s : Text) : Text := if startsFormula s then ch '\'' :: s else s

/-- `safe.replaceAll('"', '""')` -/
def doubled (s : Text) : Text := s.flatMap fun u => if u = ch '"' then [ch '"', ch '"'] else [u]

/-- `/[",\n\r;]/` -/
def isSpecial (u : UInt16) : Bool := u ∈ [ch '"', ch ',', ch '\n', ch '\r', ch ';']

/-- A value as it is exported: `null` and `undefined` have no text, a date has its
`toISOString`, an object its `JSON.stringify`, all else its `String`. -/
abbrev Exported := Option Text

/-- What a value is in its cell. -/
def written (v : Exported) : Text :=
  match v with
  | none => []
  | some s => safe s

def csvCell (v : Exported) : Text :=
  if (written v).any isSpecial then ch '"' :: (doubled (written v) ++ [ch '"']) else written v

def toCsv (header : List Text) (rows : List (List Exported)) : Text :=
  let lines := join (ch ';') header :: rows.map fun r => join (ch ';') (r.map csvCell)
  bom :: ([ch '\r', ch '\n'].intercalate lines ++ [ch '\r', ch '\n'])

/-! ## How the reader takes a cell -/

/-- The separators of a file. -/
def IsSep (sep : UInt16) : Prop := sep = ch ';' ∨ sep = ch ','

/-- A sign that the reader takes as it is. -/
def IsPlain (sep u : UInt16) : Prop := u ≠ ch '"' ∧ u ≠ sep ∧ u ≠ ch '\n' ∧ u ≠ ch '\r'

variable {sep : UInt16}

theorem split_plain {s : Text} (hs : ∀ u ∈ s, IsPlain sep u) (row : List Text) (cell t : Text) :
    splitRecords sep (s ++ t) false row cell = splitRecords sep t false row (cell ++ s) := by
  induction s generalizing cell with
  | nil => rw [List.nil_append, List.append_nil]
  | cons u s ih =>
    obtain ⟨hquote, hsep, hlf, hcr⟩ := hs u List.mem_cons_self
    rw [List.cons_append, splitRecords.eq_def]
    dsimp only
    rw [if_neg hquote, if_neg hsep, if_neg hlf, if_neg hcr,
      ih (fun v hv => hs v (List.mem_cons_of_mem _ hv)), List.append_assoc, List.singleton_append]

/-- A doubled text inside quotes, up to the quote that closes it. -/
theorem split_doubled (s : Text) (row : List Text) (cell : Text) {t : Text}
    (ht : t.head? ≠ some (ch '"')) :
    splitRecords sep (doubled s ++ ch '"' :: t) true row cell =
      splitRecords sep t false row (cell ++ s) := by
  induction s generalizing cell with
  | nil =>
    change splitRecords sep (ch '"' :: t) true row cell = _
    rw [splitRecords.eq_def, List.append_nil]
    dsimp only
    rw [if_pos rfl]
    cases t with
    | nil => rfl
    | cons v t => exact if_neg fun hv => ht (congrArg some hv)
  | cons u s ih =>
    by_cases hu : u = ch '"'
    · subst hu
      change splitRecords sep (ch '"' :: ch '"' :: (doubled s ++ ch '"' :: t)) true row cell = _
      rw [splitRecords.eq_def]
      dsimp only
      rw [if_pos rfl, if_pos rfl, ih, List.append_assoc, List.singleton_append]
    · have hdoubled : doubled (u :: s) = u :: doubled s := by
        unfold doubled
        rw [List.flatMap_cons, if_neg hu, List.singleton_append]
      rw [hdoubled, List.cons_append, splitRecords.eq_def]
      dsimp only
      rw [if_neg hu, ih, List.append_assoc, List.singleton_append]

theorem split_quote (row : List Text) (cell t : Text) :
    splitRecords sep (ch '"' :: t) false row cell = splitRecords sep t true row cell := by
  rw [splitRecords.eq_def]
  dsimp only
  rw [if_pos rfl]

theorem split_sep (hsep : IsSep sep) (row : List Text) (cell t : Text) :
    splitRecords sep (sep :: t) false row cell = splitRecords sep t false (row ++ [cell]) [] := by
  have hquote : sep ≠ ch '"' := by rcases hsep with rfl | rfl <;> decide
  rw [splitRecords.eq_def]
  dsimp only
  rw [if_neg hquote, if_pos rfl]

theorem split_lf (hsep : IsSep sep) (row : List Text) (cell t : Text) :
    splitRecords sep (ch '\n' :: t) false row cell =
      (row ++ [cell]) :: splitRecords sep t false [] [] := by
  have hlf : ch '\n' ≠ sep := by rcases hsep with rfl | rfl <;> decide
  rw [splitRecords.eq_def]
  dsimp only
  rw [if_neg (by decide), if_neg hlf, if_pos rfl]

theorem split_crlf (hsep : IsSep sep) (row : List Text) (cell t : Text) :
    splitRecords sep (ch '\r' :: ch '\n' :: t) false row cell =
      (row ++ [cell]) :: splitRecords sep t false [] [] := by
  have hcr : ch '\r' ≠ sep := by rcases hsep with rfl | rfl <;> decide
  rw [splitRecords.eq_def]
  dsimp only
  rw [if_neg (by decide), if_neg hcr, if_neg (by decide), if_pos rfl, if_pos rfl]

/-- A text of a cell that is read as a value, whatever follows but a quote. -/
def Reads (sep : UInt16) (raw value : Text) : Prop :=
  ∀ (row : List Text) (t : Text), t.head? ≠ some (ch '"') →
    splitRecords sep (raw ++ t) false row [] = splitRecords sep t false row value

theorem reads_plain {s : Text} (hs : ∀ u ∈ s, IsPlain sep u) : Reads sep s s := by
  intro row t _
  rw [split_plain hs, List.nil_append]

theorem isPlain_of_isSpecial {u : UInt16} (h : isSpecial u = false) : IsPlain (ch ';') u := by
  simp only [isSpecial, decide_eq_false_iff_not, List.mem_cons, List.not_mem_nil, or_false,
    not_or] at h
  obtain ⟨hquote, -, hlf, hcr, hsep⟩ := h
  exact ⟨hquote, hsep, hlf, hcr⟩

/-- A cell is read as what was written into it. -/
theorem reads_csvCell (v : Exported) : Reads (ch ';') (csvCell v) (written v) := by
  unfold csvCell
  by_cases hspecial : (written v).any isSpecial = true
  · intro row t ht
    rw [if_pos hspecial, List.cons_append, List.append_assoc, List.singleton_append, split_quote,
      split_doubled _ _ _ ht, List.nil_append]
  · rw [if_neg hspecial]
    apply reads_plain
    intro u hu
    rw [Bool.not_eq_true, List.any_eq_false] at hspecial
    exact isPlain_of_isSpecial (Bool.eq_false_of_not_eq_true (hspecial u hu))

theorem head?_ne {u v : UInt16} {t : Text} (h : u ≠ v) : (u :: t).head? ≠ some v :=
  fun heq => h (Option.some.inj heq)

/-- What is read from a line: one without a cell has an empty one. -/
def recordOf (values : List Text) : List Text := if values = [] then [[]] else values

/-- The cells of a line, up to its end. -/
theorem split_cells (hsep : IsSep sep) {raws values : List Text}
    (h : List.Forall₂ (Reads sep) raws values) (row : List Text) {t : Text}
    (ht : t.head? ≠ some (ch '"')) :
    ∃ front last, row ++ recordOf values = front ++ [last] ∧
      splitRecords sep (join sep raws ++ t) false row [] = splitRecords sep t false front last := by
  have hquote : sep ≠ ch '"' := by rcases hsep with rfl | rfl <;> decide
  induction h generalizing row with
  | nil => exact ⟨row, [], rfl, rfl⟩
  | @cons raw value raws values hread hrest ih =>
    rw [recordOf, if_neg (List.cons_ne_nil value values)]
    cases hrest with
    | nil => exact ⟨row, value, rfl, by rw [join_singleton, hread row _ ht]⟩
    | @cons raw' value' raws values hread' hrest =>
      obtain ⟨front, last, hlast, hsplit⟩ := ih (row ++ [value])
      refine ⟨front, last, ?_, ?_⟩
      · rw [← hlast, recordOf, if_neg (List.cons_ne_nil value' values), List.append_assoc,
          List.singleton_append]
      · rw [join_cons_cons, List.append_assoc, List.cons_append,
          hread row _ (head?_ne hquote), split_sep hsep, hsplit]

theorem split_line (hsep : IsSep sep) {raws values : List Text}
    (h : List.Forall₂ (Reads sep) raws values) (t : Text) :
    splitRecords sep (join sep raws ++ ch '\r' :: ch '\n' :: t) false [] [] =
      recordOf values :: splitRecords sep t false [] [] := by
  obtain ⟨front, last, hlast, hsplit⟩ :=
    split_cells hsep h [] (head?_ne (t := ch '\n' :: t) (show ch '\r' ≠ ch '"' by decide))
  rw [hsplit, split_crlf hsep, ← hlast, List.nil_append]

/-- The lines of a file, each ended by a line break. -/
theorem lines_cons (l : Text) (ls : List Text) :
    [ch '\r', ch '\n'].intercalate (l :: ls) ++ [ch '\r', ch '\n'] =
      l ++ ch '\r' :: ch '\n' ::
        if ls = [] then [] else [ch '\r', ch '\n'].intercalate ls ++ [ch '\r', ch '\n'] := by
  cases ls with
  | nil => simp
  | cons m ls => simp [List.intercalate]

theorem split_lines {ls : List (List Text × List Text)}
    (h : ∀ l ∈ ls, List.Forall₂ (Reads (ch ';')) l.1 l.2) (hne : ls ≠ []) :
    splitRecords (ch ';') ([ch '\r', ch '\n'].intercalate
        (ls.map fun l => join (ch ';') l.1) ++ [ch '\r', ch '\n']) false [] [] =
      ls.map fun l => recordOf l.2 := by
  induction ls with
  | nil => exact absurd rfl hne
  | cons l ls ih =>
    rw [List.map_cons, lines_cons, split_line (.inl rfl) (h l List.mem_cons_self), List.map_cons]
    congr 1
    cases ls with
    | nil => rfl
    | cons m ls =>
      rw [if_neg (by simp)]
      exact ih (fun k hk => h k (List.mem_cons_of_mem _ hk)) (List.cons_ne_nil m ls)

/-! ## A header -/

/-- Names of columns: distinct, trimmed, without a sign of the format; none that of the
organisation, none that of a member that every object has. -/
structure Columns (header : List Text) : Prop where
  distinct : header.Nodup
  nonempty : ∀ h ∈ header, h ≠ []
  trimmed : ∀ h ∈ header, trim h = h
  plain : ∀ h ∈ header, ∀ u ∈ h, isSpecial u = false
  organisation : ∀ h ∈ header, h ≠ js "organization_id"
  member : ∀ h ∈ header, h ∉ objectMembers

theorem entries_set {m : OrderedMap Text Text} {k : Text} (h : k ∉ m.entries.map Prod.fst)
    (v : Text) : (m.set k v).entries = m.entries ++ [(k, v)] := by
  have hnone := OrderedMap.find_eq_none_iff.mpr h
  unfold OrderedMap.set
  split
  · rename_i w hw
    rw [hnone] at hw
    cases hw
  · rfl

/-- The columns of a record, one after the other. -/
theorem entries_assigned {lower : Text → Text} {rec_ : List Text} {header : List Text}
    (hcolumns : Columns header) (hlower : ∀ h ∈ header, lower h ≠ js "organization_id") (i : ℕ)
    (row : OrderedMap Text Text) (hnew : ∀ h ∈ header, h ∉ row.entries.map Prod.fst) :
    ((header.zipIdx i).foldl
      (fun row p =>
        if p.1 = [] ∨ lower p.1 = js "organization_id" then row
        else assign row p.1 (trim ((rec_[p.2]?).getD []))) row).entries =
      row.entries ++ (header.zipIdx i).map fun p => (p.1, trim ((rec_[p.2]?).getD [])) := by
  induction header generalizing i row with
  | nil => exact (List.append_nil _).symm
  | cons h header ih =>
    have htail : Columns header := by
      obtain ⟨hd, hn, ht, hp, ho, hm⟩ := hcolumns
      exact ⟨hd.of_cons, fun k hk => hn k (List.mem_cons_of_mem _ hk),
        fun k hk => ht k (List.mem_cons_of_mem _ hk), fun k hk => hp k (List.mem_cons_of_mem _ hk),
        fun k hk => ho k (List.mem_cons_of_mem _ hk), fun k hk => hm k (List.mem_cons_of_mem _ hk)⟩
    have hskip : ¬ (h = [] ∨ lower h = js "organization_id") := by
      rintro (hempty | horg)
      · exact hcolumns.nonempty h List.mem_cons_self hempty
      · exact hlower h List.mem_cons_self horg
    have hproto : h ≠ js "__proto__" := by
      rintro rfl
      exact hcolumns.member _ List.mem_cons_self (by decide)
    have hset := entries_set (hnew h List.mem_cons_self) (trim ((rec_[i]?).getD []))
    rw [List.zipIdx_cons, List.foldl_cons, if_neg hskip, assign, if_neg hproto, ih htail
      (fun k hk => hlower k (List.mem_cons_of_mem _ hk)), hset, List.map_cons, List.append_assoc,
      List.singleton_append]
    intro k hk hmem
    rw [hset, List.map_append, List.mem_append] at hmem
    rcases hmem with hold | hnow
    · exact hnew k (List.mem_cons_of_mem _ hk) hold
    · rw [List.map_singleton, List.mem_singleton] at hnow
      exact (List.nodup_cons.mp hcolumns.distinct).1 ((show k = h from hnow) ▸ hk)

theorem entries_rowOf {lower : Text → Text} {header : List Text} (hcolumns : Columns header)
    (hlower : ∀ h ∈ header, lower h ≠ js "organization_id") {rec_ : List Text}
    (hlen : rec_.length = header.length) :
    (rowOf lower header rec_).entries = header.zip (rec_.map trim) := by
  unfold rowOf
  rw [entries_assigned hcolumns hlower 0 OrderedMap.empty (by simp [OrderedMap.empty])]
  apply List.ext_getElem
  · simp [OrderedMap.empty, hlen]
  · intro i h1 h2
    have hi : i < rec_.length := by
      rw [List.length_zip, List.length_map] at h2
      omega
    simp [OrderedMap.empty, hi]

/-! ## A file that was written -/

theorem startsFormula_cons (u : UInt16) (t : Text) : startsFormula (u :: t) =
    decide (u ∈ [ch '=', ch '+', ch '-', ch '@', ch '\t', ch '\r']) := rfl

theorem not_startsFormula_safe (s : Text) : startsFormula (safe s) = false := by
  unfold safe
  by_cases h : startsFormula s = true
  · rw [if_pos h]
    rw [startsFormula_cons]
    decide
  · rw [if_neg h]
    exact Bool.eq_false_of_not_eq_true h

/-- No cell that is written starts a formula. -/
theorem not_startsFormula_written (v : Exported) : startsFormula (written v) = false := by
  cases v with
  | none => rfl
  | some s => exact not_startsFormula_safe s

theorem notMem_join {u : UInt16} (hu : isSpecial u = true) (hsep : u ≠ ch ';')
    {header : List Text} (hplain : ∀ h ∈ header, ∀ u ∈ h, isSpecial u = false) :
    u ∉ join (ch ';') header := by
  intro hmem
  rcases mem_join hmem with heq | ⟨h, hh, huh⟩
  · exact hsep heq
  · rw [hplain h hh u huh] at hu
    cases hu

theorem firstLine_crlf {l : Text} (hl : ch '\n' ∉ l) (t : Text) :
    firstLine (l ++ ch '\r' :: ch '\n' :: t) = l := by
  have hline : (l ++ ch '\r' :: ch '\n' :: t).takeWhile (· ≠ ch '\n') = l ++ [ch '\r'] := by
    rw [List.takeWhile_append_of_pos, List.takeWhile_cons_of_pos (by decide),
      List.takeWhile_cons_of_neg (by decide)]
    intro u hu
    exact decide_eq_true fun heq => hl (heq ▸ hu)
  unfold firstLine
  dsimp only
  rw [hline, if_pos, List.dropLast_concat]
  exact ⟨by simp, by simp⟩

theorem separator_join {header : List Text}
    (hplain : ∀ h ∈ header, ∀ u ∈ h, isSpecial u = false) :
    separator (join (ch ';') header) = ch ';' := by
  have hcomma : (join (ch ';') header).count (ch ',') = 0 :=
    List.count_eq_zero.mpr (notMem_join (by decide) (by decide) hplain)
  unfold separator
  rw [hcomma, if_pos (Nat.zero_le _)]

/-- The lines of an export: the header and a line for each row. -/
def linesOf (header : List Text) (rows : List (List Exported)) : List (List Text × List Text) :=
  (header, header) :: rows.map fun r => (r.map csvCell, r.map written)

theorem toCsv_lines (header : List Text) (rows : List (List Exported)) :
    toCsv header rows = bom :: ([ch '\r', ch '\n'].intercalate
      ((linesOf header rows).map fun l => join (ch ';') l.1) ++ [ch '\r', ch '\n']) := by
  unfold toCsv linesOf
  rw [List.map_cons, List.map_map]
  rfl

theorem reads_linesOf {header : List Text} (hplain : ∀ h ∈ header, ∀ u ∈ h, isSpecial u = false)
    (rows : List (List Exported)) :
    ∀ l ∈ linesOf header rows, List.Forall₂ (Reads (ch ';')) l.1 l.2 := by
  intro l hl
  rcases List.mem_cons.mp hl with rfl | hl
  · exact List.forall₂_same.mpr fun h hh =>
      reads_plain fun u hu => isPlain_of_isSpecial (hplain h hh u hu)
  · obtain ⟨r, -, rfl⟩ := List.mem_map.mp hl
    rw [List.forall₂_map_left_iff, List.forall₂_map_right_iff]
    exact List.forall₂_same.mpr fun v _ => reads_csvCell v

/-- The separator and the records of an export. -/
theorem records_toCsv {header : List Text} (hplain : ∀ h ∈ header, ∀ u ∈ h, isSpecial u = false)
    (rows : List (List Exported)) :
    separator (firstLine (clean (toCsv header rows))) = ch ';' ∧
      splitRecords (ch ';') (clean (toCsv header rows)) false [] [] =
        recordOf header :: rows.map fun r => recordOf (r.map written) := by
  have hclean : clean (toCsv header rows) = [ch '\r', ch '\n'].intercalate
      ((linesOf header rows).map fun l => join (ch ';') l.1) ++ [ch '\r', ch '\n'] := by
    rw [toCsv_lines, clean, if_pos rfl]
  refine ⟨?_, ?_⟩
  · rw [hclean, linesOf, List.map_cons, lines_cons,
      firstLine_crlf (notMem_join (by decide) (by decide) hplain), separator_join hplain]
  · rw [hclean, split_lines (reads_linesOf hplain rows) (List.cons_ne_nil _ _), linesOf,
      List.map_cons, List.map_map]
    rfl

theorem all_isBlank_recordOf (values : List Text) :
    (recordOf values).all isBlank = values.all isBlank := by
  unfold recordOf
  by_cases h : values = []
  · rw [if_pos h, h]
    rfl
  · rw [if_neg h]

/-- The rows that the import makes of an export, with the records it reads them in. -/
theorem rows_of_toCsv {lower : Text → Text} {header : List Text} (hcolumns : Columns header)
    (hlower : ∀ h ∈ header, lower h ≠ js "organization_id") {rows : List (List Exported)}
    (hwidth : ∀ r ∈ rows, r.length = header.length) :
    (parseCsv lower (toCsv header rows)).rows.map OrderedMap.entries =
      (rows.filter fun r => !(r.map written).all isBlank).map fun r =>
        header.zip (r.map fun v => trim (written v)) := by
  obtain ⟨hsep, hrecords⟩ := records_toCsv hcolumns.plain rows
  unfold parseCsv
  dsimp only
  rw [hsep, hrecords, List.tail_cons, List.filter_map, List.map_map, List.map_map]
  have hfilter : (rows.filter ((fun rec_ => !rec_.all isBlank) ∘ fun r => recordOf (r.map written))) =
      rows.filter fun r => !(r.map written).all isBlank := by
    apply List.filter_congr
    intro r _
    exact congrArg not (all_isBlank_recordOf _)
  rw [hfilter]
  apply List.map_congr_left
  intro r hr
  obtain ⟨hmem, hblank⟩ := List.mem_filter.mp hr
  have hr : r ≠ [] := by
    rintro rfl
    cases hblank
  have hheader : header ≠ [] := by
    rintro rfl
    exact hr (List.length_eq_zero_iff.mp (hwidth r hmem))
  have hnames : (recordOf header).map trim = header := by
    rw [recordOf, if_neg hheader]
    exact (List.map_congr_left hcolumns.trimmed).trans (List.map_id header)
  have hvalues : recordOf (r.map written) = r.map written := by
    rw [recordOf, if_neg (by simpa using hr)]
  change (rowOf lower ((recordOf header).map trim) (recordOf (r.map written))).entries = _
  rw [hnames, hvalues, entries_rowOf hcolumns hlower (by rw [List.length_map, hwidth r hmem]),
    List.map_map]
  rfl

/-- **An export is imported again.** A row whose cells are not all blank becomes a record of its
cells, each the exported text with an apostrophe before a formula, trimmed; and no cell of a
record, as it is read without trimming, starts a formula. -/
theorem export_is_imported {lower : Text → Text} {header : List Text} (hcolumns : Columns header)
    (hlower : ∀ h ∈ header, lower h ≠ js "organization_id") {rows : List (List Exported)}
    (hwidth : ∀ r ∈ rows, r.length = header.length) :
    (parseCsv lower (toCsv header rows)).rows.map OrderedMap.entries =
        (rows.filter fun r => !(r.map written).all isBlank).map (fun r =>
          header.zip (r.map fun v => trim (written v))) ∧
      ∀ records, records = splitRecords (parseCsv lower (toCsv header rows)).sep
          (clean (toCsv header rows)) false [] [] →
        records.tail.length = rows.length ∧
          ∀ rec_ ∈ records.tail, ∀ cell ∈ rec_, startsFormula cell = false := by
  refine ⟨rows_of_toCsv hcolumns hlower hwidth, ?_⟩
  rintro records rfl
  obtain ⟨hsep, hrecords⟩ := records_toCsv hcolumns.plain rows
  change (splitRecords (separator (firstLine (clean (toCsv header rows)))) _ _ _ _).tail.length = _ ∧
    ∀ rec_ ∈ (splitRecords (separator (firstLine (clean (toCsv header rows)))) _ _ _ _).tail, _
  rw [hsep, hrecords, List.tail_cons, List.length_map]
  refine ⟨rfl, ?_⟩
  intro rec_ hrec cell hcell
  obtain ⟨r, -, rfl⟩ := List.mem_map.mp hrec
  unfold recordOf at hcell
  split_ifs at hcell with hempty
  · rw [List.mem_singleton.mp hcell]
    rfl
  · obtain ⟨v, -, rfl⟩ := List.mem_map.mp hcell
    exact not_startsFormula_written v

theorem plain_of_all {header : List Text}
    (h : (header.all fun h => !h.any isSpecial) = true) :
    ∀ h ∈ header, ∀ u ∈ h, isSpecial u = false := by
  intro name hname u hu
  have hany : name.any isSpecial = false := by simpa using List.all_eq_true.mp h name hname
  exact Bool.eq_false_of_not_eq_true (List.any_eq_false.mp hany u hu)

/-- A value with a quote, a separator and a line break, and one that would be a formula. -/
theorem quoted_formula_is_imported :
    (parseCsv lowerAscii (toCsv [js "name", js "note"]
      [[some (js "a;\"b\"\r\nc"), some (js "=1+1")], [none, some (js " ")]])).rows.map
        OrderedMap.entries =
      [[(js "name", js "a;\"b\"\r\nc"), (js "note", js "'=1+1")]] := by
  have hcolumns : Columns [js "name", js "note"] :=
    ⟨by decide, by decide, by decide, plain_of_all (by decide), by decide, by decide⟩
  have hlower : ∀ h ∈ [js "name", js "note"], lowerAscii h ≠ js "organization_id" := by
    decide +kernel
  refine (export_is_imported hcolumns hlower (by decide)).1.trans ?_
  decide +kernel

/-- A column of the organisation in capitals is left out too. -/
theorem organisation_in_capitals_is_left_out :
    ¬ ∀ (header : List Text) (rows : List (List Exported)), Columns header →
      (∀ r ∈ rows, r.length = header.length) →
        (parseCsv lowerAscii (toCsv header rows)).rows.map OrderedMap.entries =
          (rows.filter fun r => !(r.map written).all isBlank).map fun r =>
            header.zip (r.map fun v => trim (written v)) := by
  intro h
  have hcolumns : Columns [js "Organization_ID"] :=
    ⟨by decide, by decide, by decide, plain_of_all (by decide), by decide, by decide⟩
  have hrow := h [js "Organization_ID"] [[some (js "x")]] hcolumns (by decide)
  revert hrow
  decide +kernel

end Klick.Csv
