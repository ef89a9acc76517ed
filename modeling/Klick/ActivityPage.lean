-- The activity of an organisation page by page (`lib/activity-page.ts`, `orgActivity`): audit
-- entries and comments, each list newest first by its own cursor, mixed by their times.
import Klick.Json
import Klick.Months
import Klick.Paging

namespace Klick.Activity

open Js Paging

/-! ## Rows -/

/-- `INT8_MAX` -/
def int8Max : ℕ := 9223372036854775807

/-- An entry of the audit log; its number is one of the database. -/
structure AuditRow where
  seq : ℕ
  at_ : ℤ
  seq_le : seq ≤ int8Max
deriving DecidableEq

def microsPerDay : ℤ := 86400000000

/-- A time in microseconds, in a year of four digits. -/
structure Timestamp where
  micros : ℤ
  year_lo : 1 ≤ (civilDay (micros / microsPerDay)).year
  year_hi : (civilDay (micros / microsPerDay)).year ≤ 9999
deriving DecidableEq

/-- `createdAt.getTime()` -/
def Timestamp.getTime (t : Timestamp) : ℤ := t.micros / 1000

structure CommentRow where
  createdAt : Timestamp
  id : ℕ
  id_lt : id < 2 ^ 128
deriving DecidableEq

/-! ## Texts of the cursor -/

/-- `to_char(t at time zone 'UTC', 'YYYY-MM-DD"T"HH24:MI:SS.US"Z"')` -/
def toChar (t : ℤ) : Text :=
  let d := civilDay (t / microsPerDay)
  let rest := (t % microsPerDay).toNat
  zeroed 4 d.year.toNat ++ ch '-' :: (zeroed 2 d.month ++ ch '-' :: (zeroed 2 d.day ++ ch 'T' ::
    (zeroed 2 (rest / 3600000000) ++ ch ':' :: (zeroed 2 (rest / 60000000 % 60) ++ ch ':' ::
      (zeroed 2 (rest / 1000000 % 60) ++ ch '.' :: (zeroed 6 (rest % 1000000) ++ [ch 'Z']))))))

/-- So many digits of a number to the base 16. -/
def hexDigits : ℕ → ℕ → Text
  | 0, _ => []
  | width + 1, n => hexUnit (n / 16 ^ width % 16) :: hexDigits width n

/-- A UUID as the database writes it. -/
def uuidText (n : ℕ) : Text :=
  hexDigits 8 (n / 16 ^ 24) ++ ch '-' :: (hexDigits 4 (n / 16 ^ 20) ++ ch '-' ::
    (hexDigits 4 (n / 16 ^ 16) ++ ch '-' :: (hexDigits 4 (n / 16 ^ 12) ++ ch '-' ::
      hexDigits 12 n)))

/-- The digits that stand in a text from a place on. -/
def part (t : Text) (i n : ℕ) : ℕ := natOf ((t.drop i).take n)

/-- `::timestamptz` of a text that `to_char` has written -/
def timestamptz (t : Text) : ℤ :=
  let month : ℤ := 12 * part t 0 4 + (part t 5 2 - 1)
  let day := monthStart month + (part t 8 2 - 1)
  day * microsPerDay + (part t 11 2 * 3600000000 + part t 14 2 * 60000000 +
    part t 17 2 * 1000000 + part t 20 6 : ℕ)

/-- `::uuid` of a text that the database has written -/
def uuid (t : Text) : ℕ := (t.filterMap hexValue).foldl (fun n d => 16 * n + d) 0

/-! ## Cursors -/

structure CommentCursor where
  at_ : Text
  id : Text
deriving DecidableEq

structure ActivityCursor where
  auditSeq : Option ℕ
  comment : Option CommentCursor
deriving DecidableEq

/-- `START_CURSOR` -/
def startCursor : ActivityCursor := ⟨none, none⟩

/-- The part of a cursor before its `~`. -/
def auditText : Option ℕ → Text
  | none => [ch '-']
  | some seq => decimal seq

/-- The part after it. -/
def commentText : Option CommentCursor → Text
  | none => [ch '-']
  | some comment => comment.at_ ++ ch '_' :: comment.id

def encodeActivityCursor (c : ActivityCursor) : Text :=
  auditText c.auditSeq ++ ch '~' :: commentText c.comment

/-- A text of which each unit is of its kind, and no more. -/
def fits : List (UInt16 → Bool) → Text → Bool
  | [], [] => true
  | p :: ps, u :: t => p u && fits ps t
  | _, _ => false

def digits (n : ℕ) : List (UInt16 → Bool) := List.replicate n isDigit

def only (c : Char) : List (UInt16 → Bool) := [(· = ch c)]

/-- `/^\d{4}-\d{2}-\d{2}T\d{2}:\d{2}:\d{2}\.\d{6}Z$/` -/
def atPattern : List (UInt16 → Bool) :=
  digits 4 ++ only '-' ++ digits 2 ++ only '-' ++ digits 2 ++ only 'T' ++ digits 2 ++ only ':' ++
    digits 2 ++ only ':' ++ digits 2 ++ only '.' ++ digits 6 ++ only 'Z'

def hexes (n : ℕ) : List (UInt16 → Bool) := List.replicate n isHexLower

/-- `/^[0-9a-f]{8}-[0-9a-f]{4}-[0-9a-f]{4}-[0-9a-f]{4}-[0-9a-f]{12}$/` -/
def uuidPattern : List (UInt16 → Bool) :=
  hexes 8 ++ only '-' ++ hexes 4 ++ only '-' ++ hexes 4 ++ only '-' ++ hexes 4 ++ only '-' ++
    hexes 12

/-- `/^\d{1,19}$/` -/
def isSeq (t : Text) : Bool := 1 ≤ t.length && t.length ≤ 19 && t.all isDigit

/-- The number of the audit log in a cursor, or that it is not one. -/
def parseAudit (audit : Text) : Option (Option ℕ) :=
  if audit = [ch '-'] then some none
  else if !isSeq audit then none
  else if natOf audit > int8Max then none
  else some (some (natOf audit))

def parseComment (comment : Text) : Option (Option CommentCursor) :=
  if comment = [ch '-'] then some none
  else
    match comment.splitOn (ch '_') with
    | [at_, id] => if fits atPattern at_ && fits uuidPattern id then some (some ⟨at_, id⟩) else none
    | _ => none

/-- A value of `?vor=`, of which only the first counts; all that is unclear is the first page. -/
def parseActivityCursor (v : Option Text) : ActivityCursor :=
  match v with
  | none => startCursor
  | some raw =>
    if raw = [] ∨ raw.length > 120 then startCursor
    else
      match raw.splitOn (ch '~') with
      | [audit, comment] =>
        match parseAudit audit, parseComment comment with
        | some auditSeq, some comment => ⟨auditSeq, comment⟩
        | _, _ => startCursor
      | _ => startCursor

/-! ## Pages -/

/-- The loop of `takeActivityPage`: how many rows of each list are the newest, so many in all. -/
def mix : ℕ → List AuditRow → List CommentRow → ℕ × ℕ
  | 0, _, _ => (0, 0)
  | _ + 1, [], [] => (0, 0)
  | n + 1, _ :: audit, [] => (mix n audit []).map (· + 1) id
  | n + 1, [], _ :: comments => (mix n [] comments).map id (· + 1)
  | n + 1, a :: audit, c :: comments =>
    if c.createdAt.getTime ≤ a.at_ then (mix n audit (c :: comments)).map (· + 1) id
    else (mix n (a :: audit) comments).map id (· + 1)

structure Page where
  audit : List AuditRow
  comments : List CommentRow
  next : Option ActivityCursor

/-- The cursor after the rows of a page; a list without a row keeps its part. -/
def ActivityCursor.after (cursor : ActivityCursor) (takenAudit : List AuditRow)
    (takenComments : List CommentRow) : ActivityCursor where
  auditSeq :=
    match takenAudit.getLast? with
    | some lastAudit => some lastAudit.seq
    | none => cursor.auditSeq
  comment :=
    match takenComments.getLast? with
    | some lastComment => some ⟨toChar lastComment.createdAt.micros, uuidText lastComment.id⟩
    | none => cursor.comment

def takeActivityPage (audit : List AuditRow) (comments : List CommentRow)
    (cursor : ActivityCursor) (size : ℕ) : Page :=
  let taken := mix size audit comments
  let takenAudit := audit.take taken.1
  let takenComments := comments.take taken.2
  let more := audit.length + comments.length > taken.1 + taken.2
  { audit := takenAudit
    comments := takenComments
    next := if more then some (cursor.after takenAudit takenComments) else none }

/-- The order of the comments: the time, and the id where times are equal. -/
def CommentRow.key (c : CommentRow) : ℤ ×ₗ ℕ := toLex (c.createdAt.micros, c.id)

/-- The rows of an organisation; the database gives no number twice, and no id twice. -/
structure Tables where
  audit : List AuditRow
  comments : List CommentRow
  audit_distinct : (audit.map AuditRow.seq).Nodup
  comments_distinct : (comments.map CommentRow.key).Nodup

/-- The key that a cursor of the comments stands for in the database. -/
def CommentCursor.key (c : CommentCursor) : ℤ ×ₗ ℕ := toLex (timestamptz c.at_, uuid c.id)

/-- The key below which the comments of the next page lie. -/
def ActivityCursor.key (c : ActivityCursor) : Option (ℤ ×ₗ ℕ) := c.comment.map CommentCursor.key

/-- A page of the activity, of at most so many rows more than one of each list. -/
def orgActivity (tables : Tables) (cursor : ActivityCursor) (size : ℕ) : Page :=
  takeActivityPage ((newest AuditRow.seq cursor.auditSeq tables.audit).take (size + 1))
    ((newest CommentRow.key cursor.key tables.comments).take (size + 1)) cursor size

/-- The pages from a cursor on, each read from the tables of its time, until there is none. -/
def follow (size : ℕ) (tables : ℕ → Tables) : ℕ → ℕ → ActivityCursor → Option (List Page)
  | 0, _, _ => none
  | fuel + 1, k, cursor =>
    let page := orgActivity (tables k) cursor size
    match page.next with
    | none => some [page]
    | some next =>
      (follow size tables fuel (k + 1)
        (parseActivityCursor (some (encodeActivityCursor next)))).map (page :: ·)

/-! ## The texts that a cursor is made of -/

theorem fits_append {ps qs : List (UInt16 → Bool)} {s t : Text} (hs : fits ps s = true)
    (ht : fits qs t = true) : fits (ps ++ qs) (s ++ t) = true := by
  induction ps generalizing s with
  | nil =>
    cases s with
    | nil => exact ht
    | cons u s => cases hs
  | cons p ps ih =>
    cases s with
    | nil => cases hs
    | cons u s =>
      obtain ⟨hp, hrest⟩ := Bool.and_eq_true_iff.mp hs
      exact Bool.and_eq_true_iff.mpr ⟨hp, ih hrest⟩

theorem fits_cons {c : Char} {ps : List (UInt16 → Bool)} {t : Text} (h : fits ps t = true) :
    fits (only c ++ ps) (ch c :: t) = true :=
  Bool.and_eq_true_iff.mpr ⟨decide_eq_true rfl, h⟩

theorem fits_replicate {p : UInt16 → Bool} {n : ℕ} {t : Text} (hn : t.length = n)
    (h : ∀ u ∈ t, p u = true) : fits (List.replicate n p) t = true := by
  subst hn
  induction t with
  | nil => rfl
  | cons u t ih =>
    apply Bool.and_eq_true_iff.mpr
    exact ⟨h u List.mem_cons_self, ih fun v hv => h v (List.mem_cons_of_mem _ hv)⟩

theorem fits_length {ps : List (UInt16 → Bool)} {t : Text} (h : fits ps t = true) :
    t.length = ps.length := by
  induction ps generalizing t with
  | nil =>
    cases t with
    | nil => rfl
    | cons u t => cases h
  | cons p ps ih =>
    cases t with
    | nil => cases h
    | cons u t => rw [List.length_cons, List.length_cons, ih (Bool.and_eq_true_iff.mp h).2]

/-- A unit that no place of a pattern takes is not in its texts. -/
theorem notMem_of_fits {ps : List (UInt16 → Bool)} {t : Text} {u : UInt16} (h : fits ps t = true)
    (hu : ∀ p ∈ ps, p u = false) : u ∉ t := by
  induction ps generalizing t with
  | nil =>
    cases t with
    | nil => exact List.not_mem_nil
    | cons v t => cases h
  | cons p ps ih =>
    cases t with
    | nil => cases h
    | cons v t =>
      obtain ⟨hp, hrest⟩ := Bool.and_eq_true_iff.mp h
      intro hmem
      rcases List.mem_cons.mp hmem with rfl | hmem
      · rw [hu p List.mem_cons_self] at hp
        cases hp
      · exact ih hrest (fun q hq => hu q (List.mem_cons_of_mem _ hq)) hmem

theorem fits_digits {width n : ℕ} (hw : 0 < width) (h : n < 10 ^ width) :
    fits (digits width) (zeroed width n) = true :=
  fits_replicate (zeroed_length hw h) (zeroed_digits width n)

/-- The parts of a time of a row are as wide as they are written. -/
theorem Timestamp.parts (t : Timestamp) :
    (civilDay (t.micros / microsPerDay)).year.toNat < 10 ^ 4 ∧
      (civilDay (t.micros / microsPerDay)).month < 10 ^ 2 ∧
      (civilDay (t.micros / microsPerDay)).day < 10 ^ 2 ∧
      (t.micros % microsPerDay).toNat < 86400000000 := by
  have hyear := t.year_hi
  have hday := dayOfMonth_bounds (t.micros / microsPerDay)
  have hdays := monthDays_bounds (monthOf (t.micros / microsPerDay))
  have hrest := Int.emod_lt_of_pos t.micros (show 0 < microsPerDay by decide)
  rw [civilDay_eq] at hyear ⊢
  dsimp only at hyear ⊢
  unfold microsPerDay at *
  refine ⟨by omega, by omega, by omega, by omega⟩

theorem fits_toChar (t : Timestamp) : fits atPattern (toChar t.micros) = true := by
  obtain ⟨hyear, hmonth, hday, hrest⟩ := t.parts
  unfold atPattern toChar
  simp only [List.append_assoc]
  apply fits_append (fits_digits (by norm_num) hyear)
  apply fits_cons
  apply fits_append (fits_digits (by norm_num) hmonth)
  apply fits_cons
  apply fits_append (fits_digits (by norm_num) hday)
  apply fits_cons
  apply fits_append (fits_digits (by norm_num) (by omega))
  apply fits_cons
  apply fits_append (fits_digits (by norm_num) (by omega))
  apply fits_cons
  apply fits_append (fits_digits (by norm_num) (by omega))
  apply fits_cons
  apply fits_append (fits_digits (by norm_num) (by omega))
  exact @fits_cons 'Z' [] [] rfl

theorem hexDigits_length (width n : ℕ) : (hexDigits width n).length = width := by
  induction width with
  | zero => rfl
  | succ width ih => rw [hexDigits, List.length_cons, ih]

theorem isHexLower_hexUnit : ∀ d < 16, isHexLower (hexUnit d) = true := by decide

theorem hexDigits_lower (width n : ℕ) : ∀ u ∈ hexDigits width n, isHexLower u = true := by
  induction width with
  | zero => exact fun u hu => absurd hu List.not_mem_nil
  | succ width ih =>
    intro u hu
    rcases List.mem_cons.mp hu with rfl | hu
    · exact isHexLower_hexUnit _ (Nat.mod_lt _ (by norm_num))
    · exact ih u hu

theorem fits_hexDigits (width n : ℕ) : fits (hexes width) (hexDigits width n) = true :=
  fits_replicate (hexDigits_length width n) (hexDigits_lower width n)

theorem fits_uuidText (n : ℕ) : fits uuidPattern (uuidText n) = true := by
  unfold uuidPattern uuidText
  simp only [List.append_assoc]
  apply fits_append (fits_hexDigits 8 _)
  apply fits_cons
  apply fits_append (fits_hexDigits 4 _)
  apply fits_cons
  apply fits_append (fits_hexDigits 4 _)
  apply fits_cons
  apply fits_append (fits_hexDigits 4 _)
  apply fits_cons
  exact fits_hexDigits 12 _

/-! ## What the database reads in them -/

/-- The hexadecimal digits of a number, in two parts. -/
theorem hexDigits_add (a b n : ℕ) :
    hexDigits (a + b) n = hexDigits a (n / 16 ^ b) ++ hexDigits b n := by
  induction a with
  | zero => rw [Nat.zero_add, hexDigits, List.nil_append]
  | succ a ih =>
    rw [show a + 1 + b = a + b + 1 by ring, hexDigits, hexDigits, ih, List.cons_append,
      Nat.div_div_eq_div_mul, ← pow_add, Nat.add_comm b a]

/-- Their value. -/
theorem foldl_hexDigits (width n acc : ℕ) :
    ((hexDigits width n).filterMap hexValue).foldl (fun m d => 16 * m + d) acc =
      acc * 16 ^ width + n % 16 ^ width := by
  induction width generalizing acc with
  | zero =>
    rw [hexDigits, List.filterMap_nil, List.foldl_nil, pow_zero, Nat.mod_one]
    ring
  | succ width ih =>
    have hdigit := hexValue_hexUnit (n / 16 ^ width % 16) (Nat.mod_lt _ (by norm_num))
    rw [hexDigits, List.filterMap_cons_some hdigit, List.foldl_cons, ih, pow_succ, Nat.mod_mul]
    ring

theorem uuid_uuidText {n : ℕ} (h : n < 2 ^ 128) : uuid (uuidText n) = n := by
  have hdash : hexValue (ch '-') = none := by decide
  have hgroups : hexDigits 32 n = hexDigits 8 (n / 16 ^ 24) ++ (hexDigits 4 (n / 16 ^ 20) ++
      (hexDigits 4 (n / 16 ^ 16) ++ (hexDigits 4 (n / 16 ^ 12) ++ hexDigits 12 n))) := by
    rw [← hexDigits_add 4 12, ← hexDigits_add 4 16, ← hexDigits_add 4 20, ← hexDigits_add 8 24]
  have hfilter : (uuidText n).filterMap hexValue = (hexDigits 32 n).filterMap hexValue := by
    rw [hgroups]
    simp only [uuidText, List.filterMap_append, List.filterMap_cons_none hdash]
  unfold uuid
  rw [hfilter, foldl_hexDigits, Nat.zero_mul, Nat.zero_add, Nat.mod_eq_of_lt]
  norm_num at h ⊢
  exact h

theorem part_zero {a r : Text} {n : ℕ} (h : a.length = n) : part (a ++ r) 0 n = natOf a := by
  unfold part
  rw [List.drop_zero, List.take_left' h]

theorem part_next {a r : Text} {u : UInt16} {k : ℕ} (h : a.length = k) (i n : ℕ) :
    part (a ++ u :: r) (k + 1 + i) n = part r i n := by
  unfold part
  subst h
  rw [List.drop_append, List.drop_eq_nil_of_le (by omega), List.nil_append,
    show a.length + 1 + i - a.length = i + 1 by omega, List.drop_succ_cons]

/-- The time of a day, by its hours, minutes, seconds and microseconds. -/
theorem clock_parts (r : ℕ) : r / 3600000000 * 3600000000 + r / 60000000 % 60 * 60000000 +
    r / 1000000 % 60 * 1000000 + r % 1000000 = r := by
  have hhours := Nat.div_div_eq_div_mul r 60000000 60
  have hminutes := Nat.div_div_eq_div_mul r 1000000 60
  have h1 := Nat.div_add_mod r 1000000
  have h2 := Nat.div_add_mod (r / 1000000) 60
  have h3 := Nat.div_add_mod (r / 60000000) 60
  norm_num at hhours hminutes
  rw [hminutes] at h2
  rw [hhours] at h3
  omega

/-- The database reads a time as it has written it. -/
theorem timestamptz_toChar (t : Timestamp) : timestamptz (toChar t.micros) = t.micros := by
  obtain ⟨hyear, hmonth, hday, hrest⟩ := t.parts
  have hlo := t.year_lo
  have hsplit := Int.mul_ediv_add_emod t.micros microsPerDay
  have hrest0 := Int.emod_nonneg t.micros (show microsPerDay ≠ 0 by decide)
  have hdate := civilDay_eq (t.micros / microsPerDay)
  have hbounds := dayOfMonth_bounds (t.micros / microsPerDay)
  have hfirst : dayOfMonth (t.micros / microsPerDay) = t.micros / microsPerDay -
      monthStart (monthOf (t.micros / microsPerDay)) + 1 := rfl
  unfold timestamptz toChar
  dsimp only
  generalize hr : (t.micros % microsPerDay).toNat = r at *
  generalize hd : civilDay (t.micros / microsPerDay) = d at *
  have hY := zeroed_length (n := d.year.toNat) (show 0 < 4 by norm_num) hyear
  have hM := zeroed_length (n := d.month) (show 0 < 2 by norm_num) hmonth
  have hD := zeroed_length (n := d.day) (show 0 < 2 by norm_num) hday
  have hH := zeroed_length (n := r / 3600000000) (show 0 < 2 by norm_num) (by omega)
  have hI := zeroed_length (n := r / 60000000 % 60) (show 0 < 2 by norm_num) (by omega)
  have hS := zeroed_length (n := r / 1000000 % 60) (show 0 < 2 by norm_num) (by omega)
  have hU := zeroed_length (n := r % 1000000) (show 0 < 6 by norm_num) (by omega)
  rw [part_zero hY, (part_next hY 0 2).trans (part_zero hM),
    (part_next hY 3 2).trans ((part_next hM 0 2).trans (part_zero hD)),
    (part_next hY 6 2).trans ((part_next hM 3 2).trans ((part_next hD 0 2).trans (part_zero hH))),
    (part_next hY 9 2).trans ((part_next hM 6 2).trans ((part_next hD 3 2).trans
      ((part_next hH 0 2).trans (part_zero hI)))),
    (part_next hY 12 2).trans ((part_next hM 9 2).trans ((part_next hD 6 2).trans
      ((part_next hH 3 2).trans ((part_next hI 0 2).trans (part_zero hS))))),
    (part_next hY 15 6).trans ((part_next hM 12 6).trans ((part_next hD 9 6).trans
      ((part_next hH 6 6).trans ((part_next hI 3 6).trans ((part_next hS 0 6).trans
        (part_zero hU)))))),
    natOf_zeroed, natOf_zeroed, natOf_zeroed, natOf_zeroed, natOf_zeroed, natOf_zeroed,
    natOf_zeroed, clock_parts]
  rw [hdate] at hlo ⊢
  dsimp only at hlo ⊢
  have hmonthNumber : 12 * (((monthOf (t.micros / microsPerDay) / 12).toNat : ℕ) : ℤ) +
      ((((monthOf (t.micros / microsPerDay) % 12).toNat + 1 : ℕ) : ℤ) - 1) =
        monthOf (t.micros / microsPerDay) := by
    omega
  rw [hmonthNumber]
  have hdayNumber : monthStart (monthOf (t.micros / microsPerDay)) +
      (((dayOfMonth (t.micros / microsPerDay)).toNat : ℤ) - 1) = t.micros / microsPerDay := by
    omega
  rw [hdayNumber]
  linarith [Int.toNat_of_nonneg hrest0]

/-! ## Cursors are read as they were written -/

/-- What a cursor of a page holds: a number of the audit log, the time and the id of a comment. -/
structure ActivityCursor.Written (c : ActivityCursor) : Prop where
  seq : ∀ seq ∈ c.auditSeq, seq ≤ int8Max
  comment : ∀ comment ∈ c.comment, ∃ row : CommentRow,
    comment = ⟨toChar row.createdAt.micros, uuidText row.id⟩

theorem digits_miss {u : UInt16} (h : isDigit u = false) (n : ℕ) : ∀ p ∈ digits n, p u = false := by
  intro p hp
  rw [List.eq_of_mem_replicate hp, h]

theorem hexes_miss {u : UInt16} (h : isHexLower u = false) (n : ℕ) :
    ∀ p ∈ hexes n, p u = false := by
  intro p hp
  rw [List.eq_of_mem_replicate hp, h]

theorem only_miss {u : UInt16} {c : Char} (h : u ≠ ch c) : ∀ p ∈ only c, p u = false := by
  intro p hp
  rw [List.mem_singleton.mp hp]
  exact decide_eq_false h

/-- The patterns take neither `_` nor `~`. -/
theorem atPattern_miss {u : UInt16} (h : u = ch '_' ∨ u = ch '~') :
    ∀ p ∈ atPattern, p u = false := by
  have hdigit : isDigit u = false := by rcases h with rfl | rfl <;> decide
  have hdash : u ≠ ch '-' := by rcases h with rfl | rfl <;> decide
  have hT : u ≠ ch 'T' := by rcases h with rfl | rfl <;> decide
  have hcolon : u ≠ ch ':' := by rcases h with rfl | rfl <;> decide
  have hdot : u ≠ ch '.' := by rcases h with rfl | rfl <;> decide
  have hZ : u ≠ ch 'Z' := by rcases h with rfl | rfl <;> decide
  have hdigits := digits_miss hdigit
  simp only [atPattern, List.forall_mem_append, and_assoc]
  exact ⟨hdigits 4, only_miss hdash, hdigits 2, only_miss hdash, hdigits 2, only_miss hT,
    hdigits 2, only_miss hcolon, hdigits 2, only_miss hcolon, hdigits 2, only_miss hdot,
    hdigits 6, only_miss hZ⟩

theorem uuidPattern_miss {u : UInt16} (h : u = ch '_' ∨ u = ch '~') :
    ∀ p ∈ uuidPattern, p u = false := by
  have hhex : isHexLower u = false := by rcases h with rfl | rfl <;> decide
  have hdash : u ≠ ch '-' := by rcases h with rfl | rfl <;> decide
  have hhexes := hexes_miss hhex
  simp only [uuidPattern, List.forall_mem_append, and_assoc]
  exact ⟨hhexes 8, only_miss hdash, hhexes 4, only_miss hdash, hhexes 4, only_miss hdash,
    hhexes 4, only_miss hdash, hhexes 12⟩

theorem splitOn_pair {sep : UInt16} {a b : Text} (ha : sep ∉ a) (hb : sep ∉ b) :
    (a ++ sep :: b).splitOn sep = [a, b] := by
  have h : ([sep].intercalate [a, b]).splitOn sep = [a, b] :=
    List.splitOn_intercalate sep (by simp [ha, hb]) (by simp)
  simpa [List.intercalate] using h

theorem fits_commentText (row : CommentRow) :
    fits (atPattern ++ (only '_' ++ uuidPattern))
      (toChar row.createdAt.micros ++ ch '_' :: uuidText row.id) = true :=
  fits_append (fits_toChar row.createdAt) (fits_cons (fits_uuidText row.id))

theorem parseComment_text (row : CommentRow) :
    parseComment (toChar row.createdAt.micros ++ ch '_' :: uuidText row.id) =
      some (some ⟨toChar row.createdAt.micros, uuidText row.id⟩) := by
  have hat := fits_toChar row.createdAt
  have hid := fits_uuidText row.id
  have hsplit := splitOn_pair (notMem_of_fits hat (atPattern_miss (.inl rfl)))
    (notMem_of_fits hid (uuidPattern_miss (.inl rfl)))
  have hdash : toChar row.createdAt.micros ++ ch '_' :: uuidText row.id ≠ [ch '-'] := by
    intro heq
    have hlen := congrArg List.length heq
    rw [List.length_append, List.length_cons, fits_length hat, fits_length hid] at hlen
    simp [atPattern, uuidPattern, digits, hexes, only] at hlen
  unfold parseComment
  rw [if_neg hdash, hsplit]
  dsimp only
  rw [hat, hid]
  rfl

theorem parseAudit_decimal {seq : ℕ} (h : seq ≤ int8Max) :
    parseAudit (decimal seq) = some (some seq) := by
  have hlen : (decimal seq).length ≤ 19 := by
    apply (decimal_length_le (by norm_num)).mpr
    exact lt_of_le_of_lt h (by decide)
  have hne : decimal seq ≠ [ch '-'] := by
    intro heq
    have hdigit := decimal_digits seq (ch '-') (heq ▸ List.mem_singleton_self _)
    exact absurd hdigit (by decide)
  have hseq : isSeq (decimal seq) = true := by
    unfold isSeq
    simp only [Bool.and_eq_true, decide_eq_true_eq, List.all_eq_true]
    exact ⟨⟨List.length_pos_of_ne_nil (decimal_ne_nil seq), hlen⟩, decimal_digits seq⟩
  unfold parseAudit
  rw [if_neg hne, hseq, natOf_decimal]
  simp [h]

/-- The audit part of a cursor: short, without `~`, and read as it is. -/
theorem audit_part {o : Option ℕ} (h : ∀ seq ∈ o, seq ≤ int8Max) :
    (auditText o).length ≤ 19 ∧ ch '~' ∉ auditText o ∧ parseAudit (auditText o) = some o := by
  cases o with
  | none => exact ⟨by decide, by decide, by decide⟩
  | some seq =>
    have hseq := h seq rfl
    refine ⟨?_, ?_, parseAudit_decimal hseq⟩
    · apply (decimal_length_le (by norm_num)).mpr
      exact lt_of_le_of_lt hseq (by decide)
    · intro hmem
      exact absurd (decimal_digits seq _ hmem) (by decide)

theorem comment_part {o : Option CommentCursor} (h : ∀ comment ∈ o, ∃ row : CommentRow,
      comment = ⟨toChar row.createdAt.micros, uuidText row.id⟩) :
    (commentText o).length ≤ 64 ∧ ch '~' ∉ commentText o ∧
      parseComment (commentText o) = some o := by
  cases o with
  | none => exact ⟨by decide, by decide, by decide⟩
  | some comment =>
    obtain ⟨row, rfl⟩ := h comment rfl
    have hfits := fits_commentText row
    refine ⟨?_, ?_, parseComment_text row⟩
    · change (toChar row.createdAt.micros ++ ch '_' :: uuidText row.id).length ≤ 64
      rw [fits_length hfits]
      simp [atPattern, uuidPattern, digits, hexes, only]
    · apply notMem_of_fits hfits
      simp only [List.forall_mem_append]
      exact ⟨atPattern_miss (.inr rfl), only_miss (by decide), uuidPattern_miss (.inr rfl)⟩

/-- **A cursor is read as it was written.** -/
theorem parse_encode {c : ActivityCursor} (h : c.Written) :
    parseActivityCursor (some (encodeActivityCursor c)) = c := by
  obtain ⟨hlen, htilde, hparse⟩ := audit_part h.seq
  obtain ⟨hlen', htilde', hparse'⟩ := comment_part h.comment
  unfold parseActivityCursor encodeActivityCursor
  dsimp only
  rw [if_neg, splitOn_pair htilde htilde']
  · dsimp only
    rw [hparse, hparse']
  · rw [List.length_append, List.length_cons]
    rintro (hnil | hlong)
    · exact absurd hnil (by simp)
    · omega

/-! ## One page -/

/-- What a page takes lies in the lists, and fills the page where they have enough. -/
theorem mix_bounds (n : ℕ) (audit : List AuditRow) (comments : List CommentRow) :
    (mix n audit comments).1 ≤ audit.length ∧ (mix n audit comments).2 ≤ comments.length ∧
      (mix n audit comments).1 + (mix n audit comments).2 =
        min n (audit.length + comments.length) := by
  fun_induction mix n audit comments with
  | case1 => simp
  | case2 => simp
  | case3 n a audit ih =>
    simp only [Prod.map_fst, Prod.map_snd, List.length_cons, id]
    omega
  | case4 n c comments ih =>
    simp only [Prod.map_fst, Prod.map_snd, List.length_cons, id]
    omega
  | case5 n a audit c comments hle ih =>
    simp only [Prod.map_fst, Prod.map_snd, List.length_cons, id] at ih ⊢
    omega
  | case6 n a audit c comments hle ih =>
    simp only [Prod.map_fst, Prod.map_snd, List.length_cons, id] at ih ⊢
    omega

/-- What a page is: the newest rows of each list, so many of each that it is full where there are
more, and a cursor after them exactly then. -/
structure PageOf (tables : Tables) (cursor : ActivityCursor) (size : ℕ) (page : Page) : Prop where
  audit : page.audit =
    (newest AuditRow.seq cursor.auditSeq tables.audit).take page.audit.length
  comments : page.comments =
    (newest CommentRow.key cursor.key tables.comments).take page.comments.length
  last : page.next = none →
    (newest AuditRow.seq cursor.auditSeq tables.audit).length ≤ page.audit.length ∧
      (newest CommentRow.key cursor.key tables.comments).length ≤ page.comments.length
  next : ∀ next ∈ page.next,
    next.auditSeq = cursorAfter AuditRow.seq cursor.auditSeq page.audit ∧
      next.key = cursorAfter CommentRow.key cursor.key page.comments ∧
      page.audit.length + page.comments.length = size ∧ (cursor.Written → next.Written)

theorem CommentRow.key_of_cursor (row : CommentRow) :
    CommentCursor.key ⟨toChar row.createdAt.micros, uuidText row.id⟩ = row.key := by
  unfold CommentCursor.key CommentRow.key
  rw [timestamptz_toChar, uuid_uuidText row.id_lt]

theorem auditSeq_after (cursor : ActivityCursor) (audit : List AuditRow)
    (comments : List CommentRow) :
    (cursor.after audit comments).auditSeq = cursorAfter AuditRow.seq cursor.auditSeq audit := by
  unfold ActivityCursor.after cursorAfter
  cases audit.getLast? with
  | none => rfl
  | some row => rfl

theorem key_after (cursor : ActivityCursor) (audit : List AuditRow)
    (comments : List CommentRow) :
    (cursor.after audit comments).key = cursorAfter CommentRow.key cursor.key comments := by
  unfold ActivityCursor.key ActivityCursor.after cursorAfter
  cases comments.getLast? with
  | none => rfl
  | some row => exact congrArg some row.key_of_cursor

/-- The cursor after a page can be written. -/
theorem ActivityCursor.Written.after {cursor : ActivityCursor} (h : cursor.Written)
    (audit : List AuditRow) (comments : List CommentRow) :
    (cursor.after audit comments).Written where
  seq := by
    intro seq hseq
    unfold ActivityCursor.after at hseq
    cases hlast : audit.getLast? with
    | none => exact h.seq seq (by simpa [hlast] using hseq)
    | some row =>
      simp only [hlast, Option.mem_some_iff] at hseq
      exact hseq ▸ row.seq_le
  comment := by
    intro comment hcomment
    unfold ActivityCursor.after at hcomment
    cases hlast : comments.getLast? with
    | none => exact h.comment comment (by simpa [hlast] using hcomment)
    | some row =>
      simp only [hlast, Option.mem_some_iff] at hcomment
      exact ⟨row, hcomment.symm⟩

theorem take_take_length {α : Type} {l : List α} {i n : ℕ} (h : i ≤ (l.take n).length) :
    (l.take n).take i = l.take ((l.take n).take i).length := by
  rw [List.length_take_of_le h, List.take_take, Nat.min_eq_left]
  rw [List.length_take] at h
  exact h.trans (Nat.min_le_left _ _)

/-- A list of at most one row more than a page has no row more than the page took. -/
theorem length_le_of_take {α : Type} {l : List α} {i n : ℕ} (hi : i ≤ n)
    (h : (l.take (n + 1)).length ≤ i) : l.length ≤ i := by
  rw [List.length_take] at h
  omega

theorem pageOf_orgActivity (tables : Tables) (cursor : ActivityCursor) (size : ℕ) :
    PageOf tables cursor size (orgActivity tables cursor size) := by
  unfold orgActivity takeActivityPage
  dsimp only
  obtain ⟨hi, hj, hsum⟩ := mix_bounds size
    ((newest AuditRow.seq cursor.auditSeq tables.audit).take (size + 1))
    ((newest CommentRow.key cursor.key tables.comments).take (size + 1))
  generalize mix size ((newest AuditRow.seq cursor.auditSeq tables.audit).take (size + 1))
    ((newest CommentRow.key cursor.key tables.comments).take (size + 1)) = taken at *
  refine ⟨take_take_length hi, take_take_length hj, ?_, ?_⟩
  · intro hnone
    rw [List.length_take_of_le hi, List.length_take_of_le hj]
    split_ifs at hnone with hmore
    exact ⟨length_le_of_take (n := size) (by omega) (by omega),
      length_le_of_take (n := size) (by omega) (by omega)⟩
  · intro next hnext
    split_ifs at hnext with hmore
    · obtain rfl := Option.mem_some_iff.mp hnext
      refine ⟨auditSeq_after _ _ _, key_after _ _ _, ?_, fun h => h.after _ _⟩
      rw [List.length_take_of_le hi, List.length_take_of_le hj]
      omega
    · cases hnext

/-! ## The walk -/

/-- The rows of the audit log that each page shows. -/
def auditCuts (pages : List Page) : List ℕ := pages.map fun page => page.audit.length

def commentCuts (pages : List Page) : List ℕ := pages.map fun page => page.comments.length

/-- What a walk from a cursor on shows, in the terms of either list. -/
structure WalkOf (tables : ℕ → Tables) (size k : ℕ) (cursor : ActivityCursor)
    (pages : List Page) : Prop where
  audit : pages.flatMap (·.audit) =
    shown AuditRow.seq (fun k => (tables k).audit) k cursor.auditSeq (auditCuts pages)
  comments : pages.flatMap (·.comments) =
    shown CommentRow.key (fun k => (tables k).comments) k cursor.key (commentCuts pages)
  auditComplete :
    Complete AuditRow.seq (fun k => (tables k).audit) k cursor.auditSeq (auditCuts pages)
  commentsComplete :
    Complete CommentRow.key (fun k => (tables k).comments) k cursor.key (commentCuts pages)
  full : ∀ page ∈ pages.dropLast, page.audit.length + page.comments.length = size

theorem follow_ne_nil {size fuel k : ℕ} {tables : ℕ → Tables} {cursor : ActivityCursor}
    {pages : List Page} (h : follow size tables fuel k cursor = some pages) : pages ≠ [] := by
  cases fuel with
  | zero => cases h
  | succ fuel =>
    unfold follow at h
    dsimp only at h
    split at h
    · cases h
      exact List.cons_ne_nil _ _
    · obtain ⟨rest, -, rfl⟩ := Option.map_eq_some_iff.mp h
      exact List.cons_ne_nil _ _

theorem walkOf_follow {size fuel k : ℕ} {tables : ℕ → Tables} {cursor : ActivityCursor}
    (hcursor : cursor.Written) {pages : List Page}
    (h : follow size tables fuel k cursor = some pages) : WalkOf tables size k cursor pages := by
  induction fuel generalizing k cursor pages with
  | zero => cases h
  | succ fuel ih =>
    have hpage := pageOf_orgActivity (tables k) cursor size
    unfold follow at h
    dsimp only at h
    generalize orgActivity (tables k) cursor size = page at *
    cases hnext : page.next with
    | none =>
      rw [hnext] at h
      cases h
      obtain ⟨haudit, hcomments⟩ := hpage.last hnext
      refine ⟨?_, ?_, haudit, hcomments, by simp⟩
      · change page.audit ++ [] = _ ++ []
        rw [← hpage.audit]
      · change page.comments ++ [] = _ ++ []
        rw [← hpage.comments]
    | some next =>
      rw [hnext] at h
      obtain ⟨hseq, hkey, hfull, hwritten⟩ := hpage.next next hnext
      dsimp only at h
      rw [parse_encode (hwritten hcursor)] at h
      obtain ⟨rest, hrest, rfl⟩ := Option.map_eq_some_iff.mp h
      have hwalk := ih (hwritten hcursor) hrest
      obtain ⟨p, rest, rfl⟩ := List.exists_cons_of_ne_nil (follow_ne_nil hrest)
      refine ⟨?_, ?_, ?_, ?_, ?_⟩
      · rw [List.flatMap_cons, hwalk.audit, hseq]
        change _ = _ ++ _
        rw [← hpage.audit]
        rfl
      · rw [List.flatMap_cons, hwalk.comments, hkey]
        change _ = _ ++ _
        rw [← hpage.comments]
        rfl
      · have hcomplete := hwalk.auditComplete
        rw [hseq, hpage.audit] at hcomplete
        exact hcomplete
      · have hcomplete := hwalk.commentsComplete
        rw [hkey, hpage.comments] at hcomplete
        exact hcomplete
      · intro q hq
        rw [List.dropLast_cons_cons] at hq
        rcases List.mem_cons.mp hq with rfl | hq
        · exact hfull
        · exact hwalk.full q hq

/-! ## Tables that grow -/

/-- Rows are added on the way, none is taken away. -/
structure Grows (tables : ℕ → Tables) : Prop where
  audit : ∀ k, (tables k).audit ⊆ (tables (k + 1)).audit
  comments : ∀ k, (tables k).comments ⊆ (tables (k + 1)).comments

/-- Each row that is added is newer than all that are there. -/
structure OnlyNewer (tables : ℕ → Tables) : Prop where
  audit : ∀ k, ∀ row ∈ (tables (k + 1)).audit,
    row ∈ (tables k).audit ∨ ∀ old ∈ (tables k).audit, old.seq < row.seq
  comments : ∀ k, ∀ row ∈ (tables (k + 1)).comments,
    row ∈ (tables k).comments ∨ ∀ old ∈ (tables k).comments, old.key < row.key

/-- Both lists have a cursor, at a row that was shown. -/
structure Both (tables : Tables) (cursor : ActivityCursor) : Prop where
  audit : ∃ row ∈ tables.audit, cursor.auditSeq = some row.seq
  comments : ∃ row ∈ tables.comments, cursor.key = some row.key

/-- From a page on, all tables have the same rows below the cursor. -/
structure Settled (tables : ℕ → Tables) (base : Tables) (k : ℕ) (cursor : ActivityCursor) :
    Prop where
  audit : ∀ k' ≥ k, newest AuditRow.seq cursor.auditSeq (tables k').audit =
    newest AuditRow.seq cursor.auditSeq base.audit
  comments : ∀ k' ≥ k, newest CommentRow.key cursor.key (tables k').comments =
    newest CommentRow.key cursor.key base.comments

theorem settled_of_newer {tables : ℕ → Tables} (hgrows : Grows tables)
    (hnewer : OnlyNewer tables) {k : ℕ} {cursor : ActivityCursor} (h : Both (tables k) cursor) :
    Settled tables (tables k) k cursor where
  audit := newest_of_newer (fun k => (tables k).audit_distinct) hgrows.audit hnewer.audit h.audit
  comments :=
    newest_of_newer (fun k => (tables k).comments_distinct) hgrows.comments hnewer.comments
      h.comments

theorem Settled.next {tables : ℕ → Tables} {base : Tables} {k size : ℕ} {cursor : ActivityCursor}
    (h : Settled tables base k cursor) {page : Page} (hpage : PageOf base cursor size page)
    {next : ActivityCursor} (hnext : page.next = some next) :
    Settled tables base (k + 1) next := by
  obtain ⟨hseq, hkey, -, -⟩ := hpage.next next hnext
  refine ⟨fun k' hk' => ?_, fun k' hk' => ?_⟩
  · rw [hseq]
    exact newest_next (tables k').audit_distinct base.audit_distinct (h.audit k' (by omega))
      hpage.audit
  · rw [hkey]
    exact newest_next (tables k').comments_distinct base.comments_distinct
      (h.comments k' (by omega)) hpage.comments

/-- The rest of the walk is that over the rows below the cursor. -/
theorem follow_settled {size fuel k : ℕ} {tables : ℕ → Tables} {base : Tables}
    {cursor : ActivityCursor} (hcursor : cursor.Written) (h : Settled tables base k cursor) :
    follow size tables fuel k cursor = follow size (fun _ => base) fuel k cursor := by
  induction fuel generalizing k cursor with
  | zero => rfl
  | succ fuel ih =>
    have hsame : orgActivity (tables k) cursor size = orgActivity base cursor size := by
      unfold orgActivity
      rw [h.audit k le_rfl, h.comments k le_rfl]
    have hpage := pageOf_orgActivity base cursor size
    unfold follow
    dsimp only
    rw [hsame]
    generalize orgActivity base cursor size = page at *
    cases hnext : page.next with
    | none => rfl
    | some next =>
      obtain ⟨-, -, -, hwritten⟩ := hpage.next next hnext
      dsimp only
      rw [parse_encode (hwritten hcursor), ih (hwritten hcursor) (h.next hpage hnext)]

/-- The walk ends. -/
theorem follow_ends {size fuel k : ℕ} (hsize : 1 ≤ size) {base : Tables} {cursor : ActivityCursor}
    (hcursor : cursor.Written)
    (h : (newest AuditRow.seq cursor.auditSeq base.audit).length +
      (newest CommentRow.key cursor.key base.comments).length < fuel) :
    ∃ pages, follow size (fun _ => base) fuel k cursor = some pages := by
  induction fuel generalizing k cursor with
  | zero => omega
  | succ fuel ih =>
    have hpage := pageOf_orgActivity base cursor size
    unfold follow
    dsimp only
    generalize orgActivity base cursor size = page at *
    cases hnext : page.next with
    | none => exact ⟨[page], rfl⟩
    | some next =>
      obtain ⟨hseq, hkey, hfull, hwritten⟩ := hpage.next next hnext
      have haudit := newest_length_next base.audit_distinct hpage.audit
      have hcomments := newest_length_next base.comments_distinct hpage.comments
      rw [← hseq] at haudit
      rw [← hkey] at hcomments
      obtain ⟨rest, hrest⟩ := ih (k := k + 1) (hwritten hcursor) (by omega)
      refine ⟨page :: rest, ?_⟩
      dsimp only
      rw [parse_encode (hwritten hcursor), hrest]
      rfl

/-! ## What a walk shows -/

theorem written_startCursor : startCursor.Written where
  seq := fun _ h => absurd h (Option.not_mem_none _)
  comment := fun _ h => absurd h (Option.not_mem_none _)

/-- Each row below the cursor once, and no other. -/
def Once {α K : Type} [LinearOrder K] [DecidableEq α] (key : α → K) (cursor : Option K)
    (table rows : List α) : Prop :=
  ∀ row, (row ∈ table → Below key cursor row → rows.count row = 1) ∧
    (¬ Below key cursor row → rows.count row = 0) ∧ rows.count row ≤ 1

theorem once_of_follow {size fuel k : ℕ} {tables : ℕ → Tables} (hgrows : Grows tables)
    {cursor : ActivityCursor} (hcursor : cursor.Written) {pages : List Page}
    (h : follow size tables fuel k cursor = some pages) :
    Once AuditRow.seq cursor.auditSeq (tables k).audit (pages.flatMap (·.audit)) ∧
      Once CommentRow.key cursor.key (tables k).comments (pages.flatMap (·.comments)) := by
  have hwalk := walkOf_follow hcursor h
  refine ⟨fun row => ?_, fun row => ?_⟩
  · rw [hwalk.audit]
    exact shown_once (fun k => (tables k).audit_distinct) hgrows.audit hwalk.auditComplete row
  · rw [hwalk.comments]
    exact shown_once (fun k => (tables k).comments_distinct) hgrows.comments
      hwalk.commentsComplete row

/-- A list with all rows of a table, each once, the newest first. -/
structure Listing {α K : Type} [LinearOrder K] (key : α → K) (table rows : List α) : Prop where
  all : rows.Perm table
  descends : rows.Pairwise fun a b => key b < key a

theorem listing_newest {α K : Type} [LinearOrder K] {key : α → K} {table : List α}
    (h : (table.map key).Nodup) : Listing key table (newest key none table) where
  all := by
    have hfilter : table.filter (Below key none) = table :=
      List.filter_eq_self.mpr fun a _ =>
        decide_eq_true fun k hk => absurd hk (Option.not_mem_none _)
    have hperm : (newest key none table).Perm (table.filter (Below key none)) :=
      newest_perm none table
    rw [hfilter] at hperm
    exact hperm
  descends := newest_descends none h

theorem listing_of_follow {size fuel : ℕ} {tables : Tables} {pages : List Page}
    (h : follow size (fun _ => tables) fuel 0 startCursor = some pages) :
    Listing AuditRow.seq tables.audit (pages.flatMap (·.audit)) ∧
      Listing CommentRow.key tables.comments (pages.flatMap (·.comments)) := by
  have hwalk := walkOf_follow written_startCursor h
  rw [hwalk.audit, hwalk.comments, shown_eq_newest tables.audit_distinct hwalk.auditComplete,
    shown_eq_newest tables.comments_distinct hwalk.commentsComplete]
  exact ⟨listing_newest tables.audit_distinct, listing_newest tables.comments_distinct⟩

theorem newest_length_le {α K : Type} [LinearOrder K] {key : α → K} (cursor : Option K)
    (table : List α) : (newest key cursor table).length ≤ table.length := by
  rw [(newest_perm cursor table).length_eq]
  exact List.length_filter_le _ _

/-- An entry and two comments, all of one time. -/
def sameTime : Tables where
  audit := [⟨7, 0, by decide⟩]
  comments := [⟨⟨0, by decide, by decide⟩, 1, by decide⟩, ⟨⟨0, by decide, by decide⟩, 2, by decide⟩]
  audit_distinct := by decide
  comments_distinct := by decide

end Klick.Activity
