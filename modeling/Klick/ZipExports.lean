-- Export archives: they are read back as they were written exactly where the names fit and
-- differ, and the manifest lists their files exactly where the cleaned names do.
import Klick.ZipRoundTrip

namespace Klick.Zip

open Js LittleEndian

section Exports

variable (deflate : Bytes → Bytes) (inflate : Bytes → ℕ → Option Bytes)
  (crc32 : Bytes → UInt32) (sha256 : Bytes → Text) (now : ℤ) (limits : ZipLimits)

/-! ## The files of an archive -/

/-- The files that are read of entries, after some taken names. -/
def filesOf : List Text → List ZipEntry → List ZipFile
  | _, [] => []
  | seen, e :: es =>
    let name := freeName seen (safeZipName e.name)
    ⟨toWellFormed name, e.raw⟩ :: filesOf (name :: seen) es

theorem filesOf_names (seen : List Text) (es : List ZipEntry) :
    (filesOf seen es).map (·.name) = (archiveNames seen es).map toWellFormed := by
  induction es generalizing seen with
  | nil => rfl
  | cons e es ih => rw [filesOf, archiveNames, List.map_cons, List.map_cons, ih]

theorem filesOf_data (seen : List Text) (es : List ZipEntry) :
    (filesOf seen es).map (·.data) = es.map (·.raw) := by
  induction es generalizing seen with
  | nil => rfl
  | cons e es ih => rw [filesOf, List.map_cons, List.map_cons, ih]

theorem length_filesOf (seen : List Text) (es : List ZipEntry) :
    (filesOf seen es).length = es.length := by
  rw [← List.length_map (·.data), filesOf_data, List.length_map]

/-- The bytes of the names fit the fields of the records. -/
def NamesFit (names : List Text) : Prop := ∀ a ∈ names, (utf8 a).length < 256 ^ 2

/-- Entries within the bounds of the format and of the reader. -/
structure Within (es : List ZipEntry) : Prop where
  count : es.length < 0xffff
  bytes : ∀ zip, buildZip deflate crc32 now es = .ok zip → zip.length < 0xffffffff
  raw : ∀ e ∈ es, e.raw.length < 0xffffffff
  entries : es.length ≤ limits.maxEntries
  each : ∀ e ∈ es, e.raw.length ≤ limits.maxEntryBytes
  total : (es.map (·.raw.length)).sum ≤ limits.maxTotalBytes
  ratio : ∀ e ∈ es, ¬ limits.maxRatio <
    fl ((pack deflate crc32 now [] e).size / (pack deflate crc32 now [] e).payload.length)

/-- An archive of entries that is read back: the contents, under names that differ and stay
in the folder, and records that agree. -/
structure Trip (es : List ZipEntry) (zip : Bytes) (files : List ZipFile) : Prop where
  built : buildZip deflate crc32 now es = .ok zip
  read : readZipEntries inflate zip (fun _ => true) limits = .ok files
  contents : files.map (·.data) = es.map (·.raw)
  unique : (files.map (·.name)).Nodup
  relative : ∀ f ∈ files, Relative f.name
  wellFormed : WellFormed crc32 zip files

/-! ## Packed entries -/

variable {deflate inflate crc32 sha256 now limits}

theorem sized_pack {name : Text} {e : ZipEntry} (hraw : e.raw.length < 0xffffffff) :
    Sized (pack deflate crc32 now name e) := by
  have hcrc : (crc32 e.raw).toNat < 256 ^ 4 := (crc32 e.raw).toNat_lt
  constructor
  · unfold pack
    dsimp only
    split_ifs <;> decide
  · exact hcrc
  · unfold pack
    dsimp only
    split_ifs with hshort <;> omega
  · unfold pack
    dsimp only
    omega

theorem describes_pack {name : Text} {e : ZipEntry} (hraw : e.raw.length < 0xffffffff)
    (hname : (utf8 name).length < 256 ^ 2) (t : Text) :
    Describes crc32 (pack deflate crc32 now name e) ⟨t, e.raw⟩ :=
  ⟨sized_pack hraw, hname, rfl, rfl⟩

section Inflate

-- `inflate` undoes `deflate` as long as the result is not too long
variable (hinflate : ∀ b n, b.length ≤ n → inflate (deflate b) n = some b)

include hinflate

theorem readable_pack {name : Text} {e : ZipEntry} (hraw : e.raw.length < 0xffffffff)
    (hname : (utf8 name).length < 256 ^ 2) (hrelative : Relative name)
    (hhead : name.head? ≠ some 0xfeff) (heach : e.raw.length ≤ limits.maxEntryBytes)
    (hratio : ¬ limits.maxRatio < fl ((pack deflate crc32 now name e).size /
      (pack deflate crc32 now name e).payload.length)) :
    Readable inflate limits (pack deflate crc32 now name e) ⟨toWellFormed name, e.raw⟩ := by
  have hpayload : (pack deflate crc32 now name e).payload.length ≤ e.raw.length := by
    unfold pack
    dsimp only
    split_ifs with hshort <;> omega
  have hsize : (pack deflate crc32 now name e).size = e.raw.length := rfl
  refine ⟨sized_pack hraw, decodeName_utf8 hhead, (relative_toWellFormed hrelative).no_slash_last,
    hname, rfl, ?_, by omega, heach, fun h => hratio h.2⟩
  by_cases hshort : (deflate e.raw).length < e.raw.length
  · right
    refine ⟨if_pos hshort, ?_⟩
    have hp : (pack deflate crc32 now name e).payload = deflate e.raw := if_pos hshort
    rw [hp]
    exact hinflate e.raw _ heach
  · left
    exact ⟨if_neg hshort, if_neg hshort⟩

/-- All entries are readable where their names fit. -/
theorem forall₂_readable {seen : List Text} {es : List ZipEntry}
    (hraw : ∀ e ∈ es, e.raw.length < 0xffffffff)
    (heach : ∀ e ∈ es, e.raw.length ≤ limits.maxEntryBytes)
    (hratio : ∀ e ∈ es, ¬ limits.maxRatio < fl ((pack deflate crc32 now [] e).size /
      (pack deflate crc32 now [] e).payload.length))
    (hnames : NamesFit (archiveNames seen es)) :
    List.Forall₂ (Readable inflate limits) (packed deflate crc32 now seen es) (filesOf seen es) := by
  have hrelative : ∀ a ∈ archiveNames seen es, Relative a := fun a ha => relative_archiveNames ha
  have hhead : ∀ a ∈ archiveNames seen es, a.head? ≠ some 0xfeff := fun a ha =>
    archiveNames_head ha
  induction es generalizing seen with
  | nil => exact .nil
  | cons e es ih =>
    unfold NamesFit at hnames
    rw [archiveNames, List.forall_mem_cons] at hnames hrelative hhead
    obtain ⟨hraw, hraws⟩ := List.forall_mem_cons.mp hraw
    obtain ⟨heach, heachs⟩ := List.forall_mem_cons.mp heach
    obtain ⟨hratio, hratios⟩ := List.forall_mem_cons.mp hratio
    exact .cons (readable_pack hinflate hraw hnames.1 hrelative.1 hhead.1 heach hratio)
      (ih hraws heachs hratios hnames.2 hrelative.2 hhead.2)

end Inflate

theorem forall₂_describes {seen : List Text} {es : List ZipEntry}
    (hraw : ∀ e ∈ es, e.raw.length < 0xffffffff) (hnames : NamesFit (archiveNames seen es)) :
    List.Forall₂ (Describes crc32) (packed deflate crc32 now seen es) (filesOf seen es) := by
  induction es generalizing seen with
  | nil => exact .nil
  | cons e es ih =>
    unfold NamesFit at hnames
    rw [archiveNames, List.forall_mem_cons] at hnames
    obtain ⟨hraw, hraws⟩ := List.forall_mem_cons.mp hraw
    exact .cons (describes_pack hraw hnames.1 _) (ih hraws hnames.2)

theorem packed_sizes (seen : List Text) (es : List ZipEntry) :
    (packed deflate crc32 now seen es).map (·.size) = es.map (·.raw.length) := by
  induction es generalizing seen with
  | nil => rfl
  | cons e es ih =>
    rw [packed, List.map_cons, List.map_cons, ih]
    rfl

theorem packed_nameBytes (seen : List Text) (es : List ZipEntry) :
    (packed deflate crc32 now seen es).map (·.nameBytes) = (archiveNames seen es).map utf8 := by
  induction es generalizing seen with
  | nil => rfl
  | cons e es ih =>
    rw [packed, archiveNames, List.map_cons, List.map_cons, ih]
    rfl

theorem sized_packed {seen : List Text} {es : List ZipEntry}
    (hraw : ∀ e ∈ es, e.raw.length < 0xffffffff) :
    ∀ p ∈ packed deflate crc32 now seen es, Sized p := by
  induction es generalizing seen with
  | nil => exact fun p hp => absurd hp List.not_mem_nil
  | cons e es ih =>
    obtain ⟨hraw, hraws⟩ := List.forall_mem_cons.mp hraw
    rw [packed]
    exact List.forall_mem_cons.mpr ⟨sized_pack hraw, ih hraws⟩

/-! ## Archives that are read back -/

theorem wellFormed_archive {ps : List Packed} {fs : List ZipFile}
    (hbytes : (archiveOf ps).length < 0xffffffff) (hcount : ps.length < 0xffff) :
    WellFormed crc32 (archiveOf ps) fs ↔ fs.length = ps.length ∧
      Agrees crc32 (archiveOf ps) (centralPlace ps ps) (localsOf ps).length fs
        (localsOf ps).length 0 := by
  have hlength := length_archiveOf ps
  have he : EndRead (archiveOf ps) (centralPlace ps ps) ps.length (centralsOf 0 ps).length
    (localsOf ps).length := endRead (by omega) (by omega) (by omega)
  have hplace : centralPlace ps ps = (localsOf ps).length + (centralsOf 0 ps).length := rfl
  constructor
  · rintro ⟨place, hfound, -, hfiles, -, hagrees⟩
    rw [he.found, Option.some.injEq] at hfound
    subst hfound
    rw [he.count] at hfiles
    rw [he.offset] at hagrees
    exact ⟨hfiles.symm, hagrees⟩
  · rintro ⟨hfiles, hagrees⟩
    refine ⟨centralPlace ps ps, he.found, ?_, ?_, ?_, ?_⟩
    · rw [hplace, hlength]
    · rw [he.count, hfiles]
    · rw [he.offset, he.size, hplace]
    · rwa [he.offset]

section Trips

variable (hinflate : ∀ b n, b.length ≤ n → inflate (deflate b) n = some b)

include hinflate

/-- What is read where the names fit. -/
theorem read_archive {es : List ZipEntry} (h : Within deflate crc32 now limits es)
    (hnames : NamesFit (archiveNames [] es)) :
    readZipEntries inflate (archiveOf (packed deflate crc32 now [] es)) (fun _ => true) limits =
      .ok (filesOf [] es) := by
  have hbuilt := buildZip_eq deflate crc32 now h.count.le
  apply readZipEntries_eq
  · rw [length_packed]
    exact h.count
  · exact h.bytes _ hbuilt
  · rw [length_packed]
    exact h.entries
  · exact forall₂_readable hinflate h.raw h.each h.ratio hnames
  · rw [packed_sizes]
    exact h.total

/-- An archive is read back exactly where its names fit, and differ also without their lone
surrogates. -/
theorem trip_iff {es : List ZipEntry} (h : Within deflate crc32 now limits es) :
    (∃ zip files, Trip deflate inflate crc32 now limits es zip files) ↔
      NamesFit (archiveNames [] es) ∧ ((archiveNames [] es).map toWellFormed).Nodup := by
  have hbuilt := buildZip_eq deflate crc32 now h.count.le
  have hbytes := h.bytes _ hbuilt
  have hlength := length_archiveOf (packed deflate crc32 now [] es)
  have hcount : (packed deflate crc32 now [] es).length < 0xffff := by
    rw [length_packed]
    exact h.count
  constructor
  · rintro ⟨zip, files, ht⟩
    have hzip : archiveOf (packed deflate crc32 now [] es) = zip :=
      Except.ok.inj (hbuilt.symm.trans ht.built)
    have hwell := ht.wellFormed
    rw [← hzip, wellFormed_archive hbytes hcount] at hwell
    have hcontrol : ∀ p ∈ packed deflate crc32 now [] es, ∀ b ∈ p.nameBytes, 32 ≤ b.toNat := by
      intro p hp
      have hmem := List.mem_map_of_mem (f := (·.nameBytes)) hp
      rw [packed_nameBytes] at hmem
      obtain ⟨a, ha, heq⟩ := List.mem_map.mp hmem
      rw [← heq]
      exact (relative_archiveNames ha).no_control
    have hfits := nameFits_of_agrees (List.nil_append _).symm (by omega) (sized_packed h.raw)
      hcontrol hwell.1 hwell.2
    have hnames : NamesFit (archiveNames [] es) := by
      intro a ha
      have hmem := List.mem_map_of_mem (f := utf8) ha
      rw [← @packed_nameBytes deflate crc32 now] at hmem
      obtain ⟨p, hp, heq⟩ := List.mem_map.mp hmem
      rw [← heq]
      exact hfits p hp
    refine ⟨hnames, ?_⟩
    have hread := ht.read
    rw [← hzip, read_archive hinflate h hnames] at hread
    have hunique := ht.unique
    rwa [← Except.ok.inj hread, filesOf_names] at hunique
  · rintro ⟨hnames, hdistinct⟩
    refine ⟨_, filesOf [] es, hbuilt, read_archive hinflate h hnames, filesOf_data [] es, ?_, ?_, ?_⟩
    · rwa [filesOf_names]
    · intro f hf
      have hmem := List.mem_map_of_mem (f := (·.name)) hf
      rw [filesOf_names] at hmem
      obtain ⟨a, ha, heq⟩ := List.mem_map.mp hmem
      rw [← heq]
      exact relative_toWellFormed (relative_archiveNames ha)
    · rw [wellFormed_archive hbytes hcount, length_packed, length_filesOf]
      exact ⟨rfl, agrees_of_describes (List.nil_append _).symm (by omega)
        (forall₂_describes h.raw hnames)⟩

/-- The files that are read are those of the entries. -/
theorem Trip.files_eq {es : List ZipEntry} {zip : Bytes} {files : List ZipFile}
    (ht : Trip deflate inflate crc32 now limits es zip files)
    (h : Within deflate crc32 now limits es) : files = filesOf [] es := by
  obtain ⟨hnames, -⟩ := (trip_iff hinflate h).mp ⟨zip, files, ht⟩
  have hzip := Except.ok.inj ((buildZip_eq deflate crc32 now h.count.le).symm.trans ht.built)
  have hread := ht.read
  rw [← hzip, read_archive hinflate h hnames] at hread
  exact (Except.ok.inj hread).symm

end Trips

/-! ## The manifest -/

variable (sha256)

/-- The line of a manifest for a file of an archive. -/
def lineOf (f : ZipFile) : ManifestFile := ⟨f.name, f.data.length, sha256 f.data⟩

/-- The manifest and the sums of an archive list its files, but for the two that list them,
under the names that they have in the archive. -/
structure Lists (es : List ZipEntry) (input : ManifestInput) (files : List ZipFile) : Prop where
  manifest : (manifestOf sha256 es input).files = (files.take es.length).map (lineOf sha256)
  written : (files.drop es.length).map (·.data) =
    [utf8 (indented 0 (Manifest.toValue ⟨input, (files.take es.length).map (lineOf sha256)⟩) ++
      [ch '\n']), utf8 (sumsOf ((files.take es.length).map (lineOf sha256)))]

variable {sha256}

theorem filesOf_append (seen : List Text) (es fs : List ZipEntry) :
    ∃ rest, filesOf seen (es ++ fs) = filesOf seen es ++ rest ∧
      rest.map (·.data) = fs.map (·.raw) := by
  induction es generalizing seen with
  | nil => exact ⟨filesOf seen fs, rfl, filesOf_data seen fs⟩
  | cons e es ih =>
    obtain ⟨rest, hfiles, hdata⟩ := ih (freeName seen (safeZipName e.name) :: seen)
    refine ⟨rest, ?_, hdata⟩
    rw [List.cons_append, filesOf, filesOf, hfiles, List.cons_append]

theorem paired_of_units {t : Text} (h : ∀ u ∈ t, isSurrogate u = false) : Paired t := by
  induction t with
  | nil => exact .nil
  | cons u t ih =>
    obtain ⟨hu, hrest⟩ := List.forall_mem_cons.mp h
    exact .unit hu (ih hrest)

theorem paired_of_all {t : Text} (h : (t.all fun u => !isSurrogate u) = true) : Paired t :=
  paired_of_units fun u hu => by simpa using List.all_eq_true.mp h u hu

theorem paired_numbered {name : Text} (h : Paired name) (k : ℕ) : Paired (numbered name k) := by
  unfold numbered
  split_ifs
  · exact h
  · apply h.append
    apply paired_of_units
    intro u hu
    rcases List.mem_cons.mp hu with rfl | hu
    · decide
    · have hrange := decimal_digits k u hu
      simp only [isDigit, Bool.and_eq_true, decide_eq_true_eq] at hrange
      simp only [isSurrogate, isHighSurrogate, isLowSurrogate, Bool.or_eq_false_iff,
        Bool.and_eq_false_iff, decide_eq_false_iff_not]
      omega

/-- A name is read as the name without its number only where it has none. -/
theorem numbered_kept {name : Text} {k : ℕ} (h : toWellFormed (numbered name k) = name) :
    Paired name ∧ numbered name k = name := by
  have hpaired : Paired name := by
    rw [← h]
    exact paired_toWellFormed _
  refine ⟨hpaired, ?_⟩
  rwa [toWellFormed_of_paired (paired_numbered hpaired k)] at h

/-- Names are read as the cleaned ones exactly where they are these, without lone
surrogates. -/
theorem names_kept_iff (seen : List Text) (es : List ZipEntry) :
    (archiveNames seen es).map toWellFormed = es.map (fun e => safeZipName e.name) ↔
      archiveNames seen es = es.map (fun e => safeZipName e.name) ∧
        ∀ e ∈ es, Paired (safeZipName e.name) := by
  constructor
  · intro h
    induction es generalizing seen with
    | nil => exact ⟨rfl, fun e he => absurd he List.not_mem_nil⟩
    | cons e es ih =>
      rw [archiveNames, List.map_cons, List.map_cons, List.cons.injEq] at h
      obtain ⟨k, -, hk⟩ := freeFrom_eq seen (safeZipName e.name) seen.length 1
      have hname : freeName seen (safeZipName e.name) = numbered (safeZipName e.name) k := hk
      obtain ⟨hfirst, hrest⟩ := h
      rw [hname] at hfirst
      obtain ⟨hpaired, hkept⟩ := numbered_kept hfirst
      obtain ⟨hnames, hall⟩ := ih _ hrest
      refine ⟨?_, List.forall_mem_cons.mpr ⟨hpaired, hall⟩⟩
      rw [archiveNames, hnames, hname, hkept, List.map_cons]
  · rintro ⟨hnames, hall⟩
    rw [hnames, List.map_map]
    apply List.map_congr_left
    intro e he
    exact toWellFormed_of_paired (hall e he)

/-- The lines of the manifest are those of the files exactly where the names are the same. -/
theorem lines_iff (seen : List Text) (es : List ZipEntry) :
    es.map (manifestFile sha256) = (filesOf seen es).map (lineOf sha256) ↔
      (archiveNames seen es).map toWellFormed = es.map (fun e => safeZipName e.name) := by
  induction es generalizing seen with
  | nil => exact iff_of_true rfl rfl
  | cons e es ih =>
    rw [filesOf, archiveNames, List.map_cons, List.map_cons, List.map_cons, List.map_cons,
      List.cons.injEq, List.cons.injEq, ih]
    refine and_congr_left fun _ => ?_
    simp only [manifestFile, lineOf, ManifestFile.mk.injEq, and_true]
    exact eq_comm

theorem paired_generated : Paired (safeZipName (js "MANIFEST.json")) ∧
    Paired (safeZipName (js "SHA256SUMS")) := by
  have hnames : safeZipName (js "MANIFEST.json") = js "MANIFEST.json" ∧
      safeZipName (js "SHA256SUMS") = js "SHA256SUMS" := by decide
  rw [hnames.1, hnames.2]
  exact ⟨paired_of_all (by decide), paired_of_all (by decide)⟩

/-- Where the cleaned names have no lone surrogates, all names of the archive are read as
they are. -/
theorem nodup_withManifest {es : List ZipEntry} {input : ManifestInput}
    (h : ∀ e ∈ es, Paired (safeZipName e.name)) :
    ((archiveNames [] (withManifest sha256 es input)).map toWellFormed).Nodup := by
  have hself : (archiveNames [] (withManifest sha256 es input)).map toWellFormed =
      archiveNames [] (withManifest sha256 es input) := by
    conv_rhs => rw [← List.map_id (archiveNames [] (withManifest sha256 es input))]
    apply List.map_congr_left
    intro a ha
    obtain ⟨e, he, k, rfl⟩ := mem_archiveNames ha
    apply toWellFormed_of_paired
    apply paired_numbered
    rcases List.mem_append.mp he with he | he
    · exact h e he
    · rcases List.mem_cons.mp he with rfl | he
      · exact paired_generated.1
      · rw [List.mem_singleton.mp he]
        exact paired_generated.2
  rw [hself]
  exact (archiveNames_nodup [] _).1

/-- Archives are read back exactly where their names fit and differ, and with a manifest
that lists their files exactly where the cleaned names fit, differ and have no lone
surrogates. -/
theorem exports_read_back (hinflate : ∀ b n, b.length ≤ n → inflate (deflate b) n = some b) :
    (∀ es, Within deflate crc32 now limits es →
      ((∃ zip files, Trip deflate inflate crc32 now limits es zip files) ↔
        NamesFit (archiveNames [] es) ∧ ((archiveNames [] es).map toWellFormed).Nodup)) ∧
    ∀ es input, Within deflate crc32 now limits (withManifest sha256 es input) →
      ((∃ zip files, Trip deflate inflate crc32 now limits (withManifest sha256 es input) zip files ∧
          Lists sha256 es input files) ↔
        NamesFit (archiveNames [] (withManifest sha256 es input)) ∧
          (es.map fun e => safeZipName e.name).Nodup ∧
          ∀ e ∈ es, Paired (safeZipName e.name)) := by
  refine ⟨fun es h => trip_iff hinflate h, fun es input h => ?_⟩
  obtain ⟨rest, hfiles, hrest⟩ := filesOf_append [] es ((withManifest sha256 es input).drop es.length)
  have hsplit : es ++ (withManifest sha256 es input).drop es.length =
      withManifest sha256 es input := by
    unfold withManifest
    rw [List.drop_left]
  rw [hsplit] at hfiles
  have htake : (filesOf [] (withManifest sha256 es input)).take es.length = filesOf [] es := by
    rw [hfiles, ← length_filesOf [] es, List.take_left]
  have hdrop : (filesOf [] (withManifest sha256 es input)).drop es.length = rest := by
    rw [hfiles, ← length_filesOf [] es, List.drop_left]
  have hlines : (manifestOf sha256 es input).files = (filesOf [] es).map (lineOf sha256) ↔
      (es.map fun e => safeZipName e.name).Nodup ∧ ∀ e ∈ es, Paired (safeZipName e.name) := by
    refine (lines_iff [] es).trans ((names_kept_iff [] es).trans ?_)
    rw [archiveNames_eq_iff]
    simp
  constructor
  · rintro ⟨zip, files, ht, hlists⟩
    have hmanifest := hlists.manifest
    rw [ht.files_eq hinflate h, htake] at hmanifest
    exact ⟨((trip_iff hinflate h).mp ⟨zip, files, ht⟩).1, hlines.mp hmanifest⟩
  · rintro ⟨hnames, hclean⟩
    obtain ⟨zip, files, ht⟩ := (trip_iff hinflate h).mpr ⟨hnames, nodup_withManifest hclean.2⟩
    have hmanifest := hlines.mpr hclean
    refine ⟨zip, files, ht, ?_⟩
    rw [ht.files_eq hinflate h]
    constructor
    · rw [htake]
      exact hmanifest
    · rw [htake, hdrop, hrest, ← hmanifest]
      unfold withManifest
      rw [List.drop_left]
      rfl

end Exports

/-! ## Archives of short files -/

/-- A compression that never makes a file shorter, as it is with short files. -/
def longer (b : Bytes) : Bytes := 0 :: b

def shorter (b : Bytes) (max : ℕ) : Option Bytes :=
  if b.tail.length ≤ max then some b.tail else none

theorem shorter_longer (b : Bytes) (n : ℕ) (h : b.length ≤ n) : shorter (longer b) n = some b :=
  if_pos h

/-- The checksum and the hash of the file below. -/
def sumOfA (_ : Bytes) : UInt32 := 0xe8b7be43

def hashOfA (_ : Bytes) : Text :=
  js "ca978112ca1bbdcafac231b39a23dc4da786eff8147c4e72b9807785afee48bb"

def fileA (name : String) : ZipEntry := ⟨js name, .text (js "a"), some 0⟩

def shortInput : ManifestInput where
  title := js "t"
  generatedAt := 0
  organizationId := js "o"
  organizationName := js "n"

theorem within_files {es : List ZipEntry} (hcount : es.length < 5000)
    (hbytes : (archiveOf (packed longer sumOfA 0 [] es)).length < 0xffffffff)
    (hraw : ∀ e ∈ es, 0 < e.raw.length ∧ e.raw.length < 10000)
    (htotal : (es.map (·.raw.length)).sum ≤ defaultZipLimits.maxTotalBytes) :
    Within longer sumOfA 0 defaultZipLimits es := by
  have heach : defaultZipLimits.maxEntryBytes = 33554432 := by decide
  constructor
  · omega
  · intro zip hzip
    rw [buildZip_eq longer sumOfA 0 (by unfold zipMaxEntries; omega)] at hzip
    rw [← Except.ok.inj hzip]
    exact hbytes
  · intro e he
    have := hraw e he
    omega
  · change es.length ≤ 5000
    omega
  · intro e he
    have := hraw e he
    omega
  · exact htotal
  · intro e he
    have hpayload : (pack longer sumOfA 0 [] e).payload = e.raw := if_neg (by simp [longer])
    have hsize : (pack longer sumOfA 0 [] e).size = e.raw.length := rfl
    have hpos : ((e.raw.length : ℕ) : ℚ) ≠ 0 := by
      have := (hraw e he).1
      positivity
    have hone : fl 1 = 1 := by simpa using @fl_intCast 1 (by norm_num)
    rw [hpayload, hsize, div_self hpos, hone]
    decide +kernel

/-- An archive of one file is read back with a manifest that lists it. -/
theorem one_file_listed : ∃ zip files,
    Trip longer shorter sumOfA 0 defaultZipLimits (withManifest hashOfA [fileA "x.txt"] shortInput)
      zip files ∧ Lists hashOfA [fileA "x.txt"] shortInput files := by
  have hwithin : Within longer sumOfA 0 defaultZipLimits
      (withManifest hashOfA [fileA "x.txt"] shortInput) := by
    apply within_files <;> decide +kernel
  refine ((exports_read_back shorter_longer).2 _ _ hwithin).mpr ⟨?_, ?_, ?_⟩
  · unfold NamesFit
    decide +kernel
  · exact List.nodup_singleton _
  · intro e he
    rw [List.mem_singleton.mp he]
    exact paired_of_all (by decide +kernel)

/-- Two files that have one name after cleaning: the second one gets a number in the archive,
but not in the manifest, which lists one name twice. -/
theorem two_files_one_line : ∃ zip files,
    Trip longer shorter sumOfA 0 defaultZipLimits
      (withManifest hashOfA [fileA "x.txt", fileA "./x.txt"] shortInput) zip files ∧
    files.map (·.name) = [js "x.txt", js "x.txt.2", js "MANIFEST.json", js "SHA256SUMS"] ∧
    (manifestOf hashOfA [fileA "x.txt", fileA "./x.txt"] shortInput).files.map (·.name) =
      [js "x.txt", js "x.txt"] ∧
    ¬ Lists hashOfA [fileA "x.txt", fileA "./x.txt"] shortInput files := by
  have hwithin : Within longer sumOfA 0 defaultZipLimits
      (withManifest hashOfA [fileA "x.txt", fileA "./x.txt"] shortInput) := by
    apply within_files <;> decide +kernel
  have hfit : NamesFit (archiveNames []
      (withManifest hashOfA [fileA "x.txt", fileA "./x.txt"] shortInput)) := by
    unfold NamesFit
    decide +kernel
  have hdistinct : ((archiveNames []
      (withManifest hashOfA [fileA "x.txt", fileA "./x.txt"] shortInput)).map toWellFormed).Nodup := by
    decide +kernel
  obtain ⟨zip, files, ht⟩ := (trip_iff shorter_longer hwithin).mpr ⟨hfit, hdistinct⟩
  have hfiles := ht.files_eq shorter_longer hwithin
  have hnames : files.map (·.name) =
      [js "x.txt", js "x.txt.2", js "MANIFEST.json", js "SHA256SUMS"] := by
    rw [hfiles, filesOf_names]
    decide +kernel
  have hmanifest : (manifestOf hashOfA [fileA "x.txt", fileA "./x.txt"] shortInput).files.map
      (·.name) = [js "x.txt", js "x.txt"] := by
    decide +kernel
  refine ⟨zip, files, ht, hnames, hmanifest, fun hlists => ?_⟩
  rw [hlists.manifest, List.map_map] at hmanifest
  have htake : (files.take 2).map (·.name) = [js "x.txt", js "x.txt"] := hmanifest
  rw [List.map_take, hnames] at htake
  revert htake
  decide

end Klick.Zip
