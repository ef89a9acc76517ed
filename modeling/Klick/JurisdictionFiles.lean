-- Plainly quoted files: the two readers of a list of countries find the same lines and cells.
import Klick.Jurisdictions
import Klick.LoneSurrogates

namespace Klick.Jurisdictions

open Js Csv

/-! ## Cells of a line -/

theorem append_join (w p : Text) (qs : List Text) (sep : UInt16) :
    w ++ join sep (p :: qs) = join sep ((w ++ p) :: qs) := by
  cases qs with
  | nil => simp
  | cons q qs => simp

theorem join_append (qs : List Text) (p w : Text) (sep : UInt16) :
    join sep (qs ++ [p]) ++ w = join sep (qs ++ [p ++ w]) := by
  induction qs with
  | nil => simp
  | cons q qs ih =>
    cases qs with
    | nil => simp
    | cons q' qs =>
      have hcons (x : Text) : join sep (q :: q' :: qs ++ [x]) =
          q ++ sep :: join sep (q' :: qs ++ [x]) := join_cons_cons _ _ _ _
      rw [hcons, hcons, List.append_assoc, List.cons_append, ih]

/-- The cells of a line do not depend on the blanks around it. -/
theorem split_trim {sep : UInt16} (hsep : isTrimmed sep = false) {raws : List Text}
    (hraws : ∀ r ∈ raws, sep ∉ r) (hne : raws ≠ []) :
    ((trim (join sep raws)).splitOn sep).map trim = raws.map trim := by
  have hmid := exists_blanks (join sep raws)
  obtain ⟨b, a, hb, ha, heq⟩ := hmid
  have hnot {w : Text} (hw : ∀ u ∈ w, isTrimmed u = true) : sep ∉ w := by
    intro hmem
    rw [hw sep hmem] at hsep
    cases hsep
  generalize hps : (trim (join sep raws)).splitOn sep = ps at *
  have hjoin : trim (join sep raws) = join sep ps := by rw [← hps, join_splitOn]
  have hps' : ∀ p ∈ ps, sep ∉ p := fun p hp => notMem_of_mem_splitOn (hps ▸ hp)
  have hpsne : ps ≠ [] := hps ▸ List.splitOn_ne_nil _ _
  -- the blanks belong to the first and to the last cell
  obtain ⟨qs, p, rfl⟩ := (List.eq_nil_or_concat' ps).resolve_left hpsne
  rw [hjoin, join_append] at heq
  obtain ⟨f, fs, hf⟩ := List.exists_cons_of_ne_nil (show qs ++ [p ++ a] ≠ [] by simp)
  rw [hf, append_join] at heq
  have hsplit : raws = (b ++ f) :: fs := by
    have hleft := List.splitOn_intercalate sep hraws hne
    have hright : ([sep].intercalate ((b ++ f) :: fs)).splitOn sep = (b ++ f) :: fs := by
      apply List.splitOn_intercalate sep _ (List.cons_ne_nil _ _)
      have hmem : ∀ r ∈ f :: fs, sep ∉ r := by
        rw [← hf]
        intro r hr
        rcases List.mem_append.mp hr with hr | hr
        · exact hps' r (List.mem_append_left _ hr)
        · rw [List.mem_singleton.mp hr, List.mem_append, not_or]
          exact ⟨hps' p (by simp), hnot ha⟩
      intro r hr
      rcases List.mem_cons.mp hr with rfl | hr
      · rw [List.mem_append, not_or]
        exact ⟨hnot hb, hmem f List.mem_cons_self⟩
      · exact hmem r (List.mem_cons_of_mem _ hr)
    rw [← hleft, ← hright]
    exact congrArg (List.splitOn sep) heq
  rw [hsplit, List.map_cons, trim_blank_append hb, ← List.map_cons, ← hf, List.map_append,
    List.map_append, List.map_singleton, List.map_singleton, trim_append_blank ha]

/-! ## Files that are quoted plainly -/

/-- A cell and what the reader of the registers takes it for: without quotes, or one text in one
pair of quotes, with blanks at most around it. -/
inductive PlainCell (sep : UInt16) : Text → Text → Prop
  | bare {t : Text} (h : ∀ u ∈ t, IsPlain sep u) : PlainCell sep t t
  | quoted {before value after : Text} (hbefore : ∀ u ∈ before, isTrimmed u = true ∧ IsPlain sep u)
      (hvalue : ∀ u ∈ value, IsPlain sep u) (htrim : trim value = value)
      (hafter : ∀ u ∈ after, isTrimmed u = true ∧ IsPlain sep u) :
      PlainCell sep (before ++ ch '"' :: (value ++ ch '"' :: after)) (before ++ value ++ after)

/-- A line of such cells. If it has but one, this is not an empty pair of quotes. -/
structure Line (sep : UInt16) where
  raws : List Text
  contents : List Text
  cells : List.Forall₂ (PlainCell sep) raws contents
  raws_ne_nil : raws ≠ []
  empty : contents.map trim = [[]] → trim (join sep raws) = []

/-- The values of the cells of a line. -/
def Line.values {sep : UInt16} (l : Line sep) : List Text := l.contents.map trim

def Line.text {sep : UInt16} (l : Line sep) : Text := join sep l.raws

/-- A text of such lines, each ended by a line break but perhaps the last. -/
inductive PlainText (sep : UInt16) : Text → List (Line sep) → Prop
  | nil : PlainText sep [] []
  | last (l : Line sep) (h : l.contents ≠ [[]]) : PlainText sep l.text [l]
  | lf (l : Line sep) {t : Text} {ls : List (Line sep)} (h : PlainText sep t ls) :
      PlainText sep (l.text ++ ch '\n' :: t) (l :: ls)
  | crlf (l : Line sep) {t : Text} {ls : List (Line sep)} (h : PlainText sep t ls) :
      PlainText sep (l.text ++ ch '\r' :: ch '\n' :: t) (l :: ls)

/-- A file with a header of distinct columns, among them `iso2`, in which both readers find the
same separator. -/
structure PlainFile (lower : Text → Text) (sep : UInt16) (text : Text) (header : Line sep)
    (lines : List (Line sep)) : Prop where
  sep_eq : separator header.text = sep
  own_sep : sepOf header.text = sep
  lines : PlainText sep (clean text) (header :: lines)
  once : Once lower header.values
  iso2 : ∃ c ∈ header.values, c ≠ [] ∧ lower c = js "iso2"

section Plain

variable {sep : UInt16}

theorem isTrimmed_quote : isTrimmed (ch '"') = false := by decide

theorem not_isTrimmed_sep (h : IsSep sep) : isTrimmed sep = false := by
  rcases h with rfl | rfl <;> decide

theorem doubled_eq_self {t : Text} (h : ∀ u ∈ t, u ≠ ch '"') : doubled t = t := by
  unfold doubled
  induction t with
  | nil => rfl
  | cons u t ih =>
    rw [List.flatMap_cons, if_neg (h u List.mem_cons_self), List.singleton_append,
      ih fun v hv => h v (List.mem_cons_of_mem _ hv)]

/-- A cell without a quote inside is read as it is between its quotes. -/
theorem reads_plainCell {raw content : Text} (h : PlainCell sep raw content) :
    Reads sep raw content := by
  cases h with
  | bare h => exact reads_plain h
  | @quoted before value after hbefore hvalue _ hafter =>
    intro row t ht
    have hdoubled := doubled_eq_self fun u hu => (hvalue u hu).1
    have hnext : (after ++ t).head? ≠ some (ch '"') := by
      cases after with
      | nil => exact ht
      | cons u after => exact head?_ne (hafter u List.mem_cons_self).2.1
    have hread := @split_doubled sep value row ([] ++ before) _ hnext
    rw [hdoubled] at hread
    rw [List.append_assoc, List.cons_append, List.append_assoc, List.cons_append,
      split_plain fun u hu => (hbefore u hu).2, split_quote, hread,
      split_plain fun u hu => (hafter u hu).2, List.nil_append]

theorem unquote_plain {t : Text} (h : ch '"' ∉ t) : unquote t = t := by
  unfold unquote
  have hhead : t.head? ≠ some (ch '"') := fun heq => h (List.mem_of_head? heq)
  have hlast : t.getLast? ≠ some (ch '"') := fun heq => h (List.mem_of_getLast? heq)
  rw [if_neg hhead]
  exact if_neg hlast

theorem unquote_quoted (value : Text) :
    unquote (ch '"' :: (value ++ [ch '"'])) = value := by
  have hfirst : (ch '"' :: (value ++ [ch '"'])).head? = some (ch '"') := rfl
  unfold unquote
  rw [if_pos hfirst, List.tail_cons]
  dsimp only
  rw [if_pos List.getLast?_concat, List.dropLast_concat]

/-- Both readers have one value for a cell. -/
theorem unquote_trim {raw content : Text} (h : PlainCell sep raw content) :
    unquote (trim raw) = trim content := by
  cases h with
  | bare h =>
    apply unquote_plain
    intro hmem
    exact (h _ ((trim_sublist raw).subset hmem)).1 rfl
  | @quoted before value after hbefore _ htrim hafter =>
    have hquoted : before ++ ch '"' :: (value ++ ch '"' :: after) =
        before ++ (ch '"' :: (value ++ [ch '"']) ++ after) := by simp
    rw [hquoted, trim_blank_append fun u hu => (hbefore u hu).1,
      trim_append_blank fun u hu => (hafter u hu).1, trim_ends isTrimmed_quote isTrimmed_quote,
      unquote_quoted, List.append_assoc, trim_blank_append fun u hu => (hbefore u hu).1,
      trim_append_blank fun u hu => (hafter u hu).1, htrim]

theorem sep_notMem {raw content : Text} (hsep : IsSep sep) (h : PlainCell sep raw content) :
    sep ∉ raw := by
  have hquote : sep ≠ ch '"' := by rcases hsep with rfl | rfl <;> decide
  cases h with
  | bare h => exact fun hmem => (h _ hmem).2.1 rfl
  | @quoted before value after hbefore hvalue _ hafter =>
    intro hmem
    simp only [List.mem_append, List.mem_cons] at hmem
    rcases hmem with h | h | h | h | h
    · exact (hbefore _ h).2.2.1 rfl
    · exact hquote h
    · exact (hvalue _ h).2.1 rfl
    · exact hquote h
    · exact (hafter _ h).2.2.1 rfl

theorem break_notMem {raw content : Text} (h : PlainCell sep raw content) :
    ch '\n' ∉ raw ∧ ch '\r' ∉ raw := by
  have hboth : ∀ u ∈ raw, u ≠ ch '\n' ∧ u ≠ ch '\r' := by
    cases h with
    | bare h => exact fun u hu => (h u hu).2.2
    | @quoted before value after hbefore hvalue _ hafter =>
      intro u hu
      simp only [List.mem_append, List.mem_cons] at hu
      rcases hu with h | rfl | h | rfl | h
      · exact (hbefore _ h).2.2.2
      · decide
      · exact (hvalue _ h).2.2
      · decide
      · exact (hafter _ h).2.2.2
  exact ⟨fun hmem => (hboth _ hmem).1 rfl, fun hmem => (hboth _ hmem).2 rfl⟩

theorem isPlain_of_all {t : Text}
    (h : (t.all fun u => u != ch '"' && u != sep && u != ch '\n' && u != ch '\r') = true) :
    ∀ u ∈ t, IsPlain sep u := by
  intro u hu
  have hall := List.all_eq_true.mp h u hu
  simp only [Bool.and_eq_true, bne_iff_ne] at hall
  obtain ⟨⟨⟨hquote, hsep⟩, hlf⟩, hcr⟩ := hall
  exact ⟨hquote, hsep, hlf, hcr⟩

namespace Line

theorem exists_plainCell (l : Line sep) {raw : Text} (h : raw ∈ l.raws) :
    ∃ content, PlainCell sep raw content := by
  obtain ⟨i, hi, rfl⟩ := List.getElem_of_mem h
  have hi' : i < l.contents.length := l.cells.length_eq ▸ hi
  exact ⟨_, l.cells.get hi hi'⟩

theorem raws_sep (hsep : IsSep sep) (l : Line sep) : ∀ r ∈ l.raws, sep ∉ r := by
  intro r hr
  obtain ⟨c, hc⟩ := exists_plainCell l hr
  exact sep_notMem hsep hc

theorem text_break (hsep : IsSep sep) (l : Line sep) : ch '\n' ∉ l.text ∧ ch '\r' ∉ l.text := by
  have hnot (u : UInt16) (hu : u ≠ sep) (h : ∀ r ∈ l.raws, u ∉ r) : u ∉ l.text := by
    intro hmem
    rcases mem_join hmem with heq | ⟨r, hr, hur⟩
    · exact hu heq
    · exact h r hr hur
  have hcell : ∀ r ∈ l.raws, ch '\n' ∉ r ∧ ch '\r' ∉ r := by
    intro r hr
    obtain ⟨c, hc⟩ := exists_plainCell l hr
    exact break_notMem hc
  constructor
  · exact hnot _ (by rcases hsep with rfl | rfl <;> decide) fun r hr => (hcell r hr).1
  · exact hnot _ (by rcases hsep with rfl | rfl <;> decide) fun r hr => (hcell r hr).2

/-- The reader of the import finds the values of a line. -/
theorem cellsOf_trim (hsep : IsSep sep) (l : Line sep) : cellsOf sep (trim l.text) = l.values := by
  have hmap : ∀ {raws contents : List Text}, List.Forall₂ (PlainCell sep) raws contents →
      raws.map (fun r => unquote (trim r)) = contents.map trim := by
    intro raws contents h
    induction h with
    | nil => rfl
    | cons hcell _ ih => rw [List.map_cons, List.map_cons, unquote_trim hcell, ih]
  have htrimmed := split_trim (not_isTrimmed_sep hsep) (l.raws_sep hsep) l.raws_ne_nil
  unfold cellsOf Line.values
  rw [← hmap l.cells]
  have hunquote := congrArg (List.map unquote) htrimmed
  rw [List.map_map, List.map_map] at hunquote
  exact hunquote

/-- A line is blank where it has one cell without a value. -/
theorem trim_text_eq_nil (hsep : IsSep sep) (l : Line sep) :
    trim l.text = [] ↔ l.values = [[]] := by
  refine ⟨fun h => ?_, l.empty⟩
  have hcells := l.cellsOf_trim hsep
  rw [h] at hcells
  rw [← hcells]
  unfold cellsOf
  rw [List.splitOn_nil]
  rfl

theorem contents_ne_nil (l : Line sep) : l.contents ≠ [] := by
  intro h
  have hcells := l.cells
  rw [h] at hcells
  exact l.raws_ne_nil (List.forall₂_nil_right_iff.mp hcells)

theorem recordOf_contents (l : Line sep) : recordOf l.contents = l.contents :=
  if_neg l.contents_ne_nil

theorem reads (l : Line sep) : List.Forall₂ (Reads sep) l.raws l.contents :=
  l.cells.imp fun _ _ h => reads_plainCell h

end Line

/-! ## Both readers on a plain file -/

theorem splitLines_append {l : Text} (hlf : ch '\n' ∉ l) (hcr : ch '\r' ∉ l) (t line : Text) :
    splitLines (l ++ t) line = splitLines t (line ++ l) := by
  induction l generalizing line with
  | nil => rw [List.nil_append, List.append_nil]
  | cons u l ih =>
    rw [List.mem_cons, not_or] at hlf hcr
    rw [List.cons_append, splitLines.eq_def]
    dsimp only
    rw [if_neg (Ne.symm hlf.1), if_neg (Ne.symm hcr.1), ih hlf.2 hcr.2, List.append_assoc,
      List.singleton_append]

theorem splitLines_lf (t line : Text) : splitLines (ch '\n' :: t) line = line :: splitLines t [] := by
  rw [splitLines.eq_def]
  dsimp only
  rw [if_pos rfl]

theorem splitLines_crlf (t line : Text) :
    splitLines (ch '\r' :: ch '\n' :: t) line = line :: splitLines t [] := by
  rw [splitLines.eq_def]
  dsimp only
  rw [if_neg (by decide), if_pos rfl, if_pos rfl]

/-- What stands before the first line stands in it. -/
theorem splitLines_front (p t line : Text) :
    splitLines t (p ++ line) = (splitLines t line).modifyHead (p ++ ·) := by
  fun_induction splitLines t line with
  | case1 line => rfl
  | case2 line t ih =>
    rw [splitLines_lf]
    rfl
  | case3 line hne ih =>
    rw [splitLines.eq_def]
    dsimp only
    rw [if_neg hne, if_pos rfl, List.append_assoc, ih]
  | case4 line hne t ih =>
    rw [splitLines_crlf]
    rfl
  | case5 line v t hv hne ih =>
    rw [splitLines.eq_def]
    dsimp only
    rw [if_neg hne, if_pos rfl, if_neg hv, List.append_assoc, ih]
  | case6 u t line hlf hcr ih =>
    rw [splitLines.eq_def]
    dsimp only
    rw [if_neg hlf, if_neg hcr, List.append_assoc, ih]

/-- A byte order mark is a blank of the first line. -/
theorem trimmedLines_clean (text : Text) : trimmedLines text = trimmedLines (clean text) := by
  unfold clean
  split
  · rfl
  rename_i u t
  split
  · rename_i hu
    subst hu
    have hsplit : splitLines (bom :: t) [] = splitLines t ([bom] ++ []) := by
      rw [splitLines.eq_def]
      dsimp only
      rw [if_neg (by decide), if_neg (by decide)]
      rfl
    have hblank : ∀ u ∈ [bom], isTrimmed u = true := by
      intro u hu
      rw [List.mem_singleton.mp hu]
      decide
    unfold trimmedLines
    rw [hsplit, splitLines_front]
    cases splitLines t [] with
    | nil => rfl
    | cons line lines => rw [List.modifyHead_cons, List.map_cons, trim_blank_append hblank,
        List.map_cons]
  · rfl

section Files

variable {sep : UInt16} {t : Text} {ls : List (Line sep)}

theorem trimmedLines_plain (hsep : IsSep sep) (h : PlainText sep t ls) :
    trimmedLines t = (ls.map fun l => trim l.text).filter fun l => l ≠ [] := by
  unfold trimmedLines
  induction h with
  | nil => rfl
  | last l _ =>
    have hbreak := l.text_break hsep
    have hsplit := splitLines_append hbreak.1 hbreak.2 [] []
    rw [List.append_nil, List.nil_append] at hsplit
    rw [hsplit]
    rfl
  | lf l _ ih =>
    have hbreak := l.text_break hsep
    rw [splitLines_append hbreak.1 hbreak.2, splitLines_lf, List.nil_append, List.map_cons,
      List.map_cons, List.filter_cons, List.filter_cons, ih]
  | crlf l _ ih =>
    have hbreak := l.text_break hsep
    rw [splitLines_append hbreak.1 hbreak.2, splitLines_crlf, List.nil_append, List.map_cons,
      List.map_cons, List.filter_cons, List.filter_cons, ih]

theorem splitRecords_plain (hsep : IsSep sep) (h : PlainText sep t ls) :
    splitRecords sep t false [] [] = ls.map (·.contents) := by
  induction h with
  | nil => rfl
  | last l hne =>
    obtain ⟨front, last, hlast, hsplit⟩ :=
      @split_cells sep hsep _ _ l.reads [] [] (by simp)
    rw [List.append_nil] at hsplit
    rw [List.nil_append, l.recordOf_contents] at hlast
    have hsome : last.length > 0 ∨ front.length > 0 := by
      by_contra hnone
      push Not at hnone
      rw [List.length_eq_zero_iff.mp (Nat.le_zero.mp hnone.1),
        List.length_eq_zero_iff.mp (Nat.le_zero.mp hnone.2)] at hlast
      exact hne hlast
    change splitRecords sep (join sep l.raws) false [] [] = _
    rw [hsplit, splitRecords, if_pos hsome, ← hlast]
    rfl
  | lf l _ ih =>
    obtain ⟨front, last, hlast, hsplit⟩ :=
      split_cells hsep l.reads [] (head?_ne (show ch '\n' ≠ ch '"' by decide))
    change splitRecords sep (join sep l.raws ++ _) false [] [] = _
    rw [hsplit, split_lf hsep, ← hlast, List.nil_append, l.recordOf_contents, ih, List.map_cons]
  | crlf l _ ih =>
    change splitRecords sep (join sep l.raws ++ _) false [] [] = _
    rw [split_line hsep l.reads, l.recordOf_contents, ih, List.map_cons]

theorem firstLine_plain (hsep : IsSep sep) {header : Line sep}
    (h : PlainText sep t (header :: ls)) : firstLine t = header.text := by
  obtain ⟨hlf, hcr⟩ := header.text_break hsep
  have hlast : header.text.getLast? ≠ some (ch '\r') := fun heq =>
    hcr (List.mem_of_getLast? heq)
  have hall : ∀ u ∈ header.text, decide (u ≠ ch '\n') = true := fun u hu =>
    decide_eq_true fun heq => hlf (heq ▸ hu)
  cases h with
  | last _ _ =>
    have htake : header.text.takeWhile (· ≠ ch '\n') = header.text :=
      List.takeWhile_eq_self_iff.mpr hall
    unfold firstLine
    dsimp only
    rw [htake, if_neg fun hand => hlast hand.2]
  | lf _ _ =>
    have htake {r : Text} : (header.text ++ ch '\n' :: r).takeWhile (· ≠ ch '\n') =
        header.text := by
      rw [List.takeWhile_append_of_pos hall, List.takeWhile_cons_of_neg (by decide),
        List.append_nil]
    unfold firstLine
    dsimp only
    rw [htake, if_neg fun hand => hlast hand.2]
  | crlf _ _ => exact firstLine_crlf hlf _

end Files

/-- The values of the lines of data, without empty lines. -/
def dataLines {sep : UInt16} (lines : List (Line sep)) : List (List Text) :=
  (lines.map Line.values).filter fun r => r ≠ [[]]

section Agreement

variable {lower upper : Text → Text} {sep : UInt16} {text : Text} {header : Line sep}
  {lines : List (Line sep)}

theorem PlainFile.isSep (h : PlainFile lower sep text header lines) : IsSep sep := by
  rw [← h.own_sep]
  unfold sepOf
  split
  · exact .inl rfl
  · exact .inr rfl

theorem PlainFile.records_eq (h : PlainFile lower sep text header lines) :
    records text = (header :: lines).map Line.values := by
  unfold records
  rw [firstLine_plain h.isSep h.lines, h.sep_eq, splitRecords_plain h.isSep h.lines, List.map_map]
  rfl

theorem PlainFile.header_ne (h : PlainFile lower sep text header lines) :
    trim header.text ≠ [] := by
  intro hblank
  obtain ⟨c, hc, hne, -⟩ := h.iso2
  rw [(header.trim_text_eq_nil h.isSep).mp hblank] at hc
  exact hne (List.mem_singleton.mp hc)

theorem PlainFile.outcomes_eq (h : PlainFile lower sep text header lines) :
    outcomes lower upper (trimmedLines text) =
      importLines lower upper (header.values.map lower) [] (dataLines lines) := by
  have hown : sepOf (trim header.text) = sep := by
    refine Eq.trans ?_ h.own_sep
    unfold sepOf
    simp only [mem_trim (show isTrimmed (ch ';') = false by decide)]
  have hlines : ((lines.map fun l => trim l.text).filter fun l => l ≠ []).map (cellsOf sep) =
      dataLines lines := by
    unfold dataLines
    rw [List.filter_map, List.filter_map, List.map_map]
    have hfilter : lines.filter ((fun l => decide (l ≠ [])) ∘ fun l => trim l.text) =
        lines.filter ((fun r => decide (r ≠ [[]])) ∘ Line.values) := by
      apply List.filter_congr
      intro l _
      exact decide_eq_decide.mpr (not_congr (l.trim_text_eq_nil h.isSep))
    rw [hfilter]
    exact List.map_congr_left fun l _ => l.cellsOf_trim h.isSep
  rw [trimmedLines_clean, trimmedLines_plain h.isSep h.lines, List.map_cons,
    List.filter_cons_of_pos (by simpa using h.header_ne)]
  unfold outcomes headerOf
  dsimp only
  rw [hown, hlines, header.cellsOf_trim h.isSep]

/-- **The import of a plainly quoted file is faithful exactly where its flags are recognised
words**, in the lines that pass the other checks and are the first of their country. -/
theorem import_faithful_iff (h : PlainFile lower sep text header lines) :
    Faithful lower upper text ↔ FlagsKnown lower upper header.values [] (dataLines lines) := by
  unfold Faithful dataRecords
  rw [h.records_eq, h.outcomes_eq]
  refine (and_iff_left (rows_distinct text)).trans ?_
  exact importLines_exact h.once [] (dataLines lines)

end Agreement

end Plain

/-! ## A flag that is no word -/

/-- What stands for a flag without being a recognised word is read as false. -/
def unknownFlag : Text := js "iso2;euSanctions\nIR;vielleicht"

theorem unknown_flag_is_read_as_false : ¬ Faithful lowerAscii id unknownFlag := by
  rintro ⟨hexact, -⟩
  have hdata : dataRecords unknownFlag = [[js "IR", js "vielleicht"]] := by decide +kernel
  have hrows : ∃ row, (outcomes lowerAscii id (trimmedLines unknownFlag)).map Except.toOption =
      [some row] ∧ row.euSanctions = false :=
    ⟨⟨js "IR", js "IR", false, .none, false, false, .allowed, .none, none⟩, by decide +kernel, rfl⟩
  obtain ⟨row, hrow, hflag⟩ := hrows
  obtain ⟨o, ho, hsome⟩ := List.map_eq_singleton_iff.mp hrow
  rw [hdata, ho, List.forall₂_cons] at hexact
  have hok : o = .ok row := by
    cases o with
    | error e => cases hsome
    | ok r => exact congrArg Except.ok (Option.some.inj hsome)
  have hcell := (hexact.1 row hok).euSanctions.1 (js "vielleicht") (by decide +kernel)
  rw [hflag] at hcell
  revert hcell
  decide +kernel

/-- A header with a quoted name, and a line under it. -/
def quotedHeader : Line (ch ';') where
  raws := [js "iso2", [] ++ ch '"' :: (js "euSanctions" ++ ch '"' :: [])]
  contents := [js "iso2", [] ++ js "euSanctions" ++ []]
  cells := .cons (.bare (isPlain_of_all (by decide)))
    (.cons (.quoted (fun _ h => absurd h List.not_mem_nil) (isPlain_of_all (by decide)) (by decide)
      fun _ h => absurd h List.not_mem_nil) .nil)
  raws_ne_nil := List.cons_ne_nil _ _
  empty := by
    intro h
    cases List.tail_eq_of_cons_eq h

def knownLine : Line (ch ';') where
  raws := [js "IR", js "ja"]
  contents := [js "IR", js "ja"]
  cells := .cons (.bare (isPlain_of_all (by decide)))
    (.cons (.bare (isPlain_of_all (by decide))) .nil)
  raws_ne_nil := List.cons_ne_nil _ _
  empty := by
    intro h
    cases List.tail_eq_of_cons_eq h

theorem known_flag_is_imported :
    Faithful lowerAscii id (js "iso2;\"euSanctions\"\r\nIR;ja") := by
  have hfile : PlainFile lowerAscii (ch ';') (js "iso2;\"euSanctions\"\r\nIR;ja") quotedHeader
      [knownLine] :=
    { sep_eq := by decide +kernel
      own_sep := by decide +kernel
      lines := .crlf quotedHeader (.last knownLine (by decide))
      once := by
        unfold Once
        decide +kernel
      iso2 := ⟨js "iso2", by decide +kernel, by decide, by decide +kernel⟩ }
  apply (import_faithful_iff hfile).mpr
  apply flagsKnown_cons.mpr
  refine ⟨fun _ _ => ?_, ?_⟩
  · unfold Known
    decide +kernel
  · intro before cells after heq
    cases before <;> cases heq

end Klick.Jurisdictions
