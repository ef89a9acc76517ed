-- The bytes of an archive: the local headers with their contents, the directory, and the
-- end record, with the fields of each at their places.
import Klick.ZipNames

namespace Klick.Zip

open Js LittleEndian

/-! ## Archives of packed entries -/

section Archives

variable (deflate : Bytes → Bytes) (crc32 : Bytes → UInt32) (now : ℤ)

/-- The entries under their names, after some taken ones. -/
def packed : List Text → List ZipEntry → List Packed
  | _, [] => []
  | seen, e :: es =>
    let name := freeName seen (safeZipName e.name)
    pack deflate crc32 now name e :: packed (name :: seen) es

/-- A local header and the contents after it. -/
def localOf (p : Packed) : Bytes := localHeader p ++ p.payload

def localsOf (ps : List Packed) : Bytes := ps.flatMap localOf

/-- The directory, whose first entry starts at an offset. -/
def centralsOf : ℕ → List Packed → Bytes
  | _, [] => []
  | o, p :: ps => centralHeader p o ++ centralsOf (o + (localOf p).length) ps

/-- The bytes of an archive. -/
def archiveOf (ps : List Packed) : Bytes :=
  localsOf ps ++ (centralsOf 0 ps ++
    LittleEndian.record (endFields ps.length (centralsOf 0 ps).length (localsOf ps).length))

theorem length_packed (seen : List Text) (es : List ZipEntry) :
    (packed deflate crc32 now seen es).length = es.length := by
  induction es generalizing seen with
  | nil => rfl
  | cons e es ih => rw [packed, List.length_cons, List.length_cons, ih]

/-- What the loop of the writer has written after some entries. -/
theorem foldl_addEntry (es : List ZipEntry) (w : Written) :
    let w' := es.foldl (addEntry deflate crc32 now) w
    let ps := packed deflate crc32 now w.seen es
    w'.locals.flatten = w.locals.flatten ++ localsOf ps ∧
      w'.centrals.flatten = w.centrals.flatten ++ centralsOf w.offset ps ∧
      w'.offset = w.offset + (localsOf ps).length := by
  induction es generalizing w with
  | nil => simp [packed, localsOf, centralsOf]
  | cons e es ih =>
    obtain ⟨hlocals, hcentrals, hoffset⟩ := ih (addEntry deflate crc32 now w e)
    have hlength (p : Packed) : (localOf p).length = (localHeader p).length + p.payload.length :=
      List.length_append
    have hcons (p : Packed) (ps : List Packed) : localsOf (p :: ps) = localOf p ++ localsOf ps := rfl
    rw [List.foldl_cons]
    dsimp only at hlocals hcentrals hoffset ⊢
    rw [hlocals, hcentrals, hoffset, packed, hcons, centralsOf, hlength, List.length_append,
      hlength]
    refine ⟨?_, ?_, ?_⟩
    · simp [addEntry, localOf]
    · simp [addEntry]
    · simp only [addEntry]
      omega

/-- The bytes that the writer gives. -/
theorem buildZip_eq {es : List ZipEntry} (h : es.length ≤ zipMaxEntries) :
    buildZip deflate crc32 now es = .ok (archiveOf (packed deflate crc32 now [] es)) := by
  obtain ⟨hlocals, hcentrals, hoffset⟩ := foldl_addEntry deflate crc32 now es {}
  have hsum (bs : List Bytes) : (bs.map List.length).sum = bs.flatten.length := by
    rw [List.length_flatten]
  have hstart : ({} : Written).locals.flatten = [] ∧ ({} : Written).centrals.flatten = [] ∧
      ({} : Written).offset = 0 ∧ ({} : Written).seen = [] := ⟨rfl, rfl, rfl, rfl⟩
  rw [hstart.1, List.nil_append, hstart.2.2.2] at hlocals
  rw [hstart.2.1, List.nil_append, hstart.2.2.1, hstart.2.2.2] at hcentrals
  rw [hstart.2.2.1, Nat.zero_add, hstart.2.2.2] at hoffset
  unfold buildZip archiveOf
  rw [if_neg (by omega)]
  dsimp only
  rw [hsum, hcentrals, hoffset, List.flatten_append, hlocals, hcentrals, length_packed,
    List.append_assoc]

end Archives

/-! ## The parts of an archive -/

theorem localsOf_append (ps qs : List Packed) :
    localsOf (ps ++ qs) = localsOf ps ++ localsOf qs := by
  simp [localsOf]

theorem centralsOf_append (o : ℕ) (ps qs : List Packed) :
    centralsOf o (ps ++ qs) = centralsOf o ps ++ centralsOf (o + (localsOf ps).length) qs := by
  induction ps generalizing o with
  | nil => rfl
  | cons p ps ih =>
    have hcons : localsOf (p :: ps) = localOf p ++ localsOf ps := rfl
    rw [List.cons_append, centralsOf, centralsOf, ih, hcons, List.length_append,
      List.append_assoc, Nat.add_assoc]

/-- Where the record of the directory stands after those of some entries. -/
def centralPlace (ps done : List Packed) : ℕ := (localsOf ps).length + (centralsOf 0 done).length

/-- The local header of an entry in the archive. -/
theorem local_at {ps done todo : List Packed} {p : Packed} (h : ps = done ++ p :: todo) :
    ∃ front rest, archiveOf ps = front ++ (LittleEndian.record (localFields p) ++
      (p.nameBytes ++ (p.payload ++ rest))) ∧ front.length = (localsOf done).length := by
  have hcons : localsOf (p :: todo) = localOf p ++ localsOf todo := rfl
  have hlocals : localsOf ps = localsOf done ++ (localOf p ++ localsOf todo) := by
    rw [h, localsOf_append, hcons]
  refine ⟨localsOf done, localsOf todo ++ (centralsOf 0 ps ++
    LittleEndian.record
      (endFields ps.length (centralsOf 0 ps).length (localsOf ps).length)), ?_, rfl⟩
  unfold archiveOf
  generalize LittleEndian.record
    (endFields ps.length (centralsOf 0 ps).length (localsOf ps).length) = last
  rw [hlocals]
  simp only [localOf, localHeader, List.append_assoc]

/-- The record of an entry in the directory. -/
theorem central_at {ps done todo : List Packed} {p : Packed} (h : ps = done ++ p :: todo) :
    ∃ front rest, archiveOf ps =
      front ++ (LittleEndian.record (centralFields p (localsOf done).length) ++
      (p.nameBytes ++ rest)) ∧ front.length = centralPlace ps done := by
  have hcentrals : centralsOf 0 ps = centralsOf 0 done ++
      (centralHeader p (localsOf done).length ++
        centralsOf ((localsOf done).length + (localOf p).length) todo) := by
    rw [h, centralsOf_append, Nat.zero_add, centralsOf]
  refine ⟨localsOf ps ++ centralsOf 0 done,
    centralsOf ((localsOf done).length + (localOf p).length) todo ++
      LittleEndian.record (endFields ps.length (centralsOf 0 ps).length (localsOf ps).length), ?_, ?_⟩
  · unfold archiveOf
    generalize LittleEndian.record
      (endFields ps.length (centralsOf 0 ps).length (localsOf ps).length) = last
    rw [hcentrals]
    simp only [centralHeader, List.append_assoc]
  · rw [List.length_append, centralPlace]

theorem end_at (ps : List Packed) : archiveOf ps = (localsOf ps ++ centralsOf 0 ps) ++
    (LittleEndian.record (endFields ps.length (centralsOf 0 ps).length (localsOf ps).length) ++ []) := by
  unfold archiveOf
  rw [List.append_nil, List.append_assoc]

theorem length_archiveOf (ps : List Packed) :
    (archiveOf ps).length = (localsOf ps).length + (centralsOf 0 ps).length + 22 := by
  rw [end_at, List.length_append, List.length_append, List.append_nil, length_record]
  rfl

/-! ## The fields of the records -/

/-- The fields of an entry fit, but for the length of its name. -/
structure Sized (p : Packed) : Prop where
  method : p.method < 256 ^ 2
  crc : p.crc < 256 ^ 4
  payload : p.payload.length < 256 ^ 4
  size : p.size < 256 ^ 4

/-- What is read of the record of an entry in the directory. -/
structure CentralRead (zip : Bytes) (place : ℕ) (p : Packed) (offset : ℕ) : Prop where
  signature : field zip place 4 = cenSignature
  flags : field zip (place + 8) 2 = 0x0800
  method : field zip (place + 10) 2 = p.method
  crc : field zip (place + 16) 4 = p.crc
  compSize : field zip (place + 20) 4 = p.payload.length
  size : field zip (place + 24) 4 = p.size
  nameLen : field zip (place + 28) 2 = p.nameBytes.length % 256 ^ 2
  extraLen : field zip (place + 30) 2 = 0
  commentLen : field zip (place + 32) 2 = 0
  offset : field zip (place + 42) 4 = offset
  name : ∃ rest, zip.drop (place + 46) = p.nameBytes ++ rest
  inside : place + 46 + p.nameBytes.length ≤ zip.length

/-- What is read of the local header of an entry. -/
structure LocalRead (zip : Bytes) (offset : ℕ) (p : Packed) : Prop where
  signature : field zip offset 4 = locSignature
  method : field zip (offset + 8) 2 = p.method
  crc : field zip (offset + 14) 4 = p.crc
  compSize : field zip (offset + 18) 4 = p.payload.length
  size : field zip (offset + 22) 4 = p.size
  nameLen : field zip (offset + 26) 2 = p.nameBytes.length % 256 ^ 2
  extraLen : field zip (offset + 28) 2 = 0
  contents : ∃ rest, zip.drop (offset + 30) = p.nameBytes ++ (p.payload ++ rest)
  inside : offset + 30 + p.nameBytes.length + p.payload.length ≤ zip.length

theorem centralRead {ps done todo : List Packed} {p : Packed} (h : ps = done ++ p :: todo)
    (hp : Sized p) (ho : (localsOf done).length < 256 ^ 4) :
    CentralRead (archiveOf ps) (centralPlace ps done) p (localsOf done).length := by
  obtain ⟨front, rest, hsplit, hfront⟩ := central_at h
  have hwidth : width (centralFields p (localsOf done).length) = 46 := by
    simp [width, centralFields]
  have hread {j w n k : ℕ} (hj : (centralFields p (localsOf done).length)[j]? = some (w, n))
      (hk : width ((centralFields p (localsOf done).length).take j) = k) :
      field (archiveOf ps) (front.length + k) w = n % 256 ^ w := by
    rw [hsplit]
    exact field_record hj (by rw [hk])
  have hfit {j w n k : ℕ} (hj : (centralFields p (localsOf done).length)[j]? = some (w, n))
      (hk : width ((centralFields p (localsOf done).length).take j) = k) (hn : n < 256 ^ w) :
      field (archiveOf ps) (front.length + k) w = n := by
    rw [hread hj hk, Nat.mod_eq_of_lt hn]
  rw [← hfront]
  constructor
  · exact @hfit 0 _ _ _ rfl rfl (by decide)
  · exact @hfit 3 _ _ _ rfl rfl (by decide)
  · exact @hfit 4 _ _ _ rfl rfl hp.method
  · exact @hfit 7 _ _ _ rfl (by simp [width, centralFields]) hp.crc
  · exact @hfit 8 _ _ _ rfl (by simp [width, centralFields]) hp.payload
  · exact @hfit 9 _ _ _ rfl (by simp [width, centralFields]) hp.size
  · exact @hread 10 _ _ _ rfl (by simp [width, centralFields])
  · exact @hfit 11 _ _ _ rfl (by simp [width, centralFields]) (by decide)
  · exact @hfit 12 _ _ _ rfl (by simp [width, centralFields]) (by decide)
  · exact @hfit 16 _ _ _ rfl (by simp [width, centralFields]) ho
  · refine ⟨rest, ?_⟩
    rw [hsplit]
    exact drop_record (by rw [hwidth])
  · rw [hsplit]
    simp only [List.length_append, length_record, hwidth]
    omega

theorem localRead {ps done todo : List Packed} {p : Packed} (h : ps = done ++ p :: todo)
    (hp : Sized p) : LocalRead (archiveOf ps) (localsOf done).length p := by
  obtain ⟨front, rest, hsplit, hfront⟩ := local_at h
  have hwidth : width (localFields p) = 30 := by simp [width, localFields]
  have hread {j w n k : ℕ} (hj : (localFields p)[j]? = some (w, n))
      (hk : width ((localFields p).take j) = k) :
      field (archiveOf ps) (front.length + k) w = n % 256 ^ w := by
    rw [hsplit]
    exact field_record hj (by rw [hk])
  have hfit {j w n k : ℕ} (hj : (localFields p)[j]? = some (w, n))
      (hk : width ((localFields p).take j) = k) (hn : n < 256 ^ w) :
      field (archiveOf ps) (front.length + k) w = n := by
    rw [hread hj hk, Nat.mod_eq_of_lt hn]
  rw [← hfront]
  constructor
  · exact @hfit 0 _ _ _ rfl rfl (by decide)
  · exact @hfit 3 _ _ _ rfl rfl hp.method
  · exact @hfit 6 _ _ _ rfl (by simp [width, localFields]) hp.crc
  · exact @hfit 7 _ _ _ rfl (by simp [width, localFields]) hp.payload
  · exact @hfit 8 _ _ _ rfl (by simp [width, localFields]) hp.size
  · exact @hread 9 _ _ _ rfl (by simp [width, localFields])
  · exact @hfit 10 _ _ _ rfl (by simp [width, localFields]) (by decide)
  · refine ⟨rest, ?_⟩
    rw [hsplit]
    exact drop_record (by rw [hwidth])
  · rw [hsplit]
    simp only [List.length_append, length_record, hwidth]
    omega

/-- What is read of the end record. -/
structure EndRead (zip : Bytes) (place count size offset : ℕ) : Prop where
  found : findEocd zip = some place
  count : field zip (place + 10) 2 = count
  size : field zip (place + 12) 4 = size
  offset : field zip (place + 16) 4 = offset

theorem endRead {ps : List Packed} (hcount : ps.length < 256 ^ 2)
    (hsize : (centralsOf 0 ps).length < 256 ^ 4) (hoffset : (localsOf ps).length < 256 ^ 4) :
    EndRead (archiveOf ps) (centralPlace ps ps) ps.length (centralsOf 0 ps).length
      (localsOf ps).length := by
  have hplace : (localsOf ps ++ centralsOf 0 ps).length = centralPlace ps ps := List.length_append
  have hfit {j w n k : ℕ}
      (hj : (endFields ps.length (centralsOf 0 ps).length (localsOf ps).length)[j]? = some (w, n))
      (hk : width ((endFields ps.length (centralsOf 0 ps).length (localsOf ps).length).take j) = k)
      (hn : n < 256 ^ w) :
      field (archiveOf ps) ((localsOf ps ++ centralsOf 0 ps).length + k) w = n := by
    rw [end_at, field_record hj (by rw [hk]), Nat.mod_eq_of_lt hn]
  rw [← hplace]
  constructor
  · have hlength : (archiveOf ps).length - 22 = (localsOf ps ++ centralsOf 0 ps).length := by
      rw [length_archiveOf, List.length_append]
      omega
    have hsignature : field (archiveOf ps) (localsOf ps ++ centralsOf 0 ps).length 4 =
        eocdSignature := @hfit 0 _ _ _ rfl rfl (by decide)
    unfold findEocd
    rw [hlength]
    cases hat : (localsOf ps ++ centralsOf 0 ps).length with
    | zero =>
      rw [hat] at hsignature
      rw [findDown, if_pos hsignature]
    | succ i =>
      rw [hat] at hsignature
      rw [findDown, if_pos hsignature]
  · exact @hfit 4 _ _ _ rfl rfl hcount
  · exact @hfit 5 _ _ _ rfl rfl hsize
  · exact @hfit 6 _ _ _ rfl rfl hoffset

/-! ## Agreement of the records -/

/-- The records of the directory from `place` on and the local headers from `offset` on are
those of the files, one after the other without gaps, and agree in all that they both say;
`stop` is the end of the directory, `start` its start. -/
def Agrees (crc32 : Bytes → UInt32) (zip : Bytes) (stop start : ℕ) :
    List ZipFile → ℕ → ℕ → Prop
  | [], place, offset => place = stop ∧ offset = start
  | f :: fs, place, offset =>
    (field zip place 4 = cenSignature ∧ field zip offset 4 = locSignature ∧
      field zip (place + 42) 4 = offset) ∧
    (field zip (place + 10) 2 = field zip (offset + 8) 2 ∧
      field zip (place + 16) 4 = field zip (offset + 14) 4 ∧
      field zip (place + 20) 4 = field zip (offset + 18) 4 ∧
      field zip (place + 24) 4 = field zip (offset + 22) 4 ∧
      field zip (place + 28) 2 = field zip (offset + 26) 2 ∧
      (zip.drop (place + 46)).take (field zip (place + 28) 2) =
        (zip.drop (offset + 30)).take (field zip (offset + 26) 2)) ∧
    (field zip (place + 16) 4 = (crc32 f.data).toNat ∧
      field zip (place + 24) 4 = f.data.length) ∧
    Agrees crc32 zip stop start fs
      (place + 46 + field zip (place + 28) 2 + field zip (place + 30) 2 +
        field zip (place + 32) 2)
      (offset + 30 + field zip (offset + 26) 2 + field zip (offset + 28) 2 +
        field zip (place + 20) 4)

/-- An archive of files whose end record, directory and local headers agree. -/
def WellFormed (crc32 : Bytes → UInt32) (zip : Bytes) (files : List ZipFile) : Prop :=
  ∃ place, findEocd zip = some place ∧ place + 22 = zip.length ∧
    field zip (place + 10) 2 = files.length ∧
    field zip (place + 16) 4 + field zip (place + 12) 4 = place ∧
    Agrees crc32 zip place (field zip (place + 16) 4) files (field zip (place + 16) 4) 0

end Klick.Zip
