-- Archives that are read back: the reader finds the files that were written exactly where
-- their names fit the records, and a manifest lists them under the names that they have.
import Klick.ZipLayout

namespace Klick.Zip

open Js LittleEndian

/-! ## One entry -/

section Reading

variable (inflate : Bytes → ℕ → Option Bytes) (limits : ZipLimits)

/-- A packed entry that is read as a file, within the limits. -/
structure Readable (p : Packed) (f : ZipFile) : Prop where
  sized : Sized p
  name : decodeName p.nameBytes = f.name
  file : ¬ (js "/").isSuffixOf f.name = true
  nameFits : p.nameBytes.length < 256 ^ 2
  size : p.size = f.data.length
  content : (p.method = 0 ∧ p.payload = f.data) ∨
    (p.method = 8 ∧ inflate p.payload limits.maxEntryBytes = some f.data)
  plain : ¬ (p.size = 0xffffffff ∨ p.payload.length = 0xffffffff)
  small : p.size ≤ limits.maxEntryBytes
  dense : ¬ (0 < p.payload.length ∧ limits.maxRatio < fl (p.size / p.payload.length))

variable {inflate limits}

theorem readEntry_eq {zip : Bytes} {place offset total : ℕ} {p : Packed} {f : ZipFile}
    (hc : CentralRead zip place p offset) (hl : LocalRead zip offset p)
    (h : Readable inflate limits p f) (htotal : total + p.size ≤ limits.maxTotalBytes) :
    readEntry inflate zip limits place total f.name = .ok f := by
  have hname : field zip (offset + 26) 2 = p.nameBytes.length := by
    rw [hl.nameLen, Nat.mod_eq_of_lt h.nameFits]
  have hraw : (zip.drop (offset + 30 + p.nameBytes.length)).take p.payload.length =
      p.payload := by
    obtain ⟨rest, hrest⟩ := hl.contents
    rw [← List.drop_drop, hrest, List.drop_left, List.take_left]
  have hinside := hl.inside
  unfold readEntry
  simp only [hc.size, hc.compSize, hc.flags, hc.method, hc.offset, hl.signature, hname,
    hl.extraLen, Nat.add_zero, hraw]
  rw [if_neg h.plain, if_neg (by decide), if_neg (by have := h.small; omega), if_neg h.dense,
    if_neg (by omega), if_neg (by simp; omega), if_neg (by omega)]
  rcases h.content with ⟨hmethod, hpayload⟩ | ⟨hmethod, hinflate⟩
  · rw [if_pos hmethod, hpayload, h.size, if_pos rfl]
  · rw [if_neg (by omega), if_pos hmethod, hinflate]
    dsimp only
    rw [h.size, if_pos rfl]

/-! ## The directory -/

theorem centralPlace_concat {ps done : List Packed} (p : Packed) :
    centralPlace ps (done ++ [p]) = centralPlace ps done + (46 + p.nameBytes.length) := by
  have hwidth : width (centralFields p (0 + (localsOf done).length)) = 46 := by
    simp [width, centralFields]
  unfold centralPlace
  rw [centralsOf_append, List.length_append, centralsOf, centralsOf, List.append_nil,
    centralHeader, List.length_append, length_record, hwidth]
  omega

theorem length_localsOf_concat (done : List Packed) (p : Packed) :
    (localsOf (done ++ [p])).length =
      (localsOf done).length + (30 + p.nameBytes.length + p.payload.length) := by
  have hwidth : width (localFields p) = 30 := by simp [width, localFields]
  have hone : localsOf [p] = localOf p := List.append_nil _
  rw [localsOf_append, List.length_append, hone, localOf, localHeader, List.length_append,
    List.length_append, length_record, hwidth]

theorem length_localsOf_le {ps done todo : List Packed} (h : ps = done ++ todo) :
    (localsOf done).length ≤ (localsOf ps).length := by
  rw [h, localsOf_append, List.length_append]
  omega

/-- From any entry on, the reader finds the files of the entries that are left. -/
theorem readFrom_eq {ps done todo : List Packed} {fs : List ZipFile} (h : ps = done ++ todo)
    (hlocals : (localsOf ps).length < 256 ^ 4) (hreadable : List.Forall₂ (Readable inflate limits) todo fs)
    {total : ℕ} (htotal : total + (todo.map (·.size)).sum ≤ limits.maxTotalBytes) :
    readFrom inflate (archiveOf ps) (fun _ => true) limits todo.length (centralPlace ps done)
      total = .ok fs := by
  induction hreadable generalizing done total with
  | nil => rfl
  | @cons p f todo fs hp _ ih =>
    have hc := centralRead h hp.sized ((length_localsOf_le h).trans_lt hlocals)
    have hl := localRead h hp.sized
    rw [List.map_cons, List.sum_cons] at htotal
    have hentry : readEntry inflate (archiveOf ps) limits (centralPlace ps done) total f.name =
        .ok f := readEntry_eq hc hl hp (by omega)
    have hnext : readFrom inflate (archiveOf ps) (fun _ => true) limits todo.length
        (centralPlace ps (done ++ [p])) (total + p.size) = .ok fs :=
      ih (by rw [h, List.append_assoc]; rfl) (by omega)
    have hnameLen : field (archiveOf ps) (centralPlace ps done + 28) 2 = p.nameBytes.length := by
      rw [hc.nameLen, Nat.mod_eq_of_lt hp.nameFits]
    have hname : decodeName (((archiveOf ps).drop (centralPlace ps done + 46)).take
        p.nameBytes.length) = f.name := by
      obtain ⟨rest, hrest⟩ := hc.name
      rw [hrest, List.take_left, hp.name]
    have hinside := hc.inside
    have hplace : centralPlace ps (done ++ [p]) =
        centralPlace ps done + 46 + p.nameBytes.length := by
      rw [centralPlace_concat, Nat.add_assoc]
    rw [hplace] at hnext
    rw [List.length_cons, readFrom, if_neg (by rw [hc.signature]; simp; omega)]
    simp only [hnameLen, hname, hc.extraLen, hc.commentLen, hc.size, Nat.add_zero, Bool.not_true,
      Bool.false_or]
    rw [if_neg hp.file, hentry]
    exact congrArg (fun r => r >>= fun files => Except.ok (f :: files)) hnext

/-- The reader finds the files of an archive. -/
theorem readZipEntries_eq {ps : List Packed} {fs : List ZipFile} (hcount : ps.length < 0xffff)
    (hbytes : (archiveOf ps).length < 0xffffffff) (hmax : ps.length ≤ limits.maxEntries)
    (hreadable : List.Forall₂ (Readable inflate limits) ps fs)
    (htotal : (ps.map (·.size)).sum ≤ limits.maxTotalBytes) :
    readZipEntries inflate (archiveOf ps) (fun _ => true) limits = .ok fs := by
  have hlength := length_archiveOf ps
  have he : EndRead (archiveOf ps) (centralPlace ps ps) ps.length (centralsOf 0 ps).length
    (localsOf ps).length := endRead (by omega) (by omega) (by omega)
  have hread : readFrom inflate (archiveOf ps) (fun _ => true) limits ps.length
      (centralPlace ps []) 0 = .ok fs :=
    readFrom_eq (List.nil_append ps).symm (by omega) hreadable (by omega)
  unfold readZipEntries
  rw [if_neg (by omega), he.found]
  dsimp only
  rw [he.count, he.size, he.offset, if_neg (by omega), if_neg (by omega), if_neg (by omega)]
  exact hread

end Reading

/-! ## Agreement -/

section Agreement

variable {crc32 : Bytes → UInt32}

/-- The places of the next records, by the fields of these ones. -/
theorem next_places {zip : Bytes} {ps done : List Packed} {p : Packed}
    (hc : CentralRead zip (centralPlace ps done) p (localsOf done).length)
    (hl : LocalRead zip (localsOf done).length p) (hname : p.nameBytes.length < 256 ^ 2) :
    centralPlace ps done + 46 + field zip (centralPlace ps done + 28) 2 +
        field zip (centralPlace ps done + 30) 2 + field zip (centralPlace ps done + 32) 2 =
      centralPlace ps (done ++ [p]) ∧
    (localsOf done).length + 30 + field zip ((localsOf done).length + 26) 2 +
        field zip ((localsOf done).length + 28) 2 + field zip (centralPlace ps done + 20) 4 =
      (localsOf (done ++ [p])).length := by
  rw [hc.nameLen, hc.extraLen, hc.commentLen, hc.compSize, hl.nameLen, hl.extraLen,
    Nat.mod_eq_of_lt hname, centralPlace_concat, length_localsOf_concat]
  omega

/-- What the records say of a file besides its name. -/
structure Describes (crc32 : Bytes → UInt32) (p : Packed) (f : ZipFile) : Prop where
  sized : Sized p
  nameFits : p.nameBytes.length < 256 ^ 2
  crc : p.crc = (crc32 f.data).toNat
  size : p.size = f.data.length

theorem agrees_of_describes {ps done todo : List Packed} {fs : List ZipFile}
    (h : ps = done ++ todo) (hlocals : (localsOf ps).length < 256 ^ 4)
    (hall : List.Forall₂ (Describes crc32) todo fs) :
    Agrees crc32 (archiveOf ps) (centralPlace ps ps) (localsOf ps).length fs
      (centralPlace ps done) (localsOf done).length := by
  induction hall generalizing done with
  | nil =>
    rw [List.append_nil] at h
    rw [h]
    exact ⟨rfl, rfl⟩
  | @cons p f todo fs hp _ ih =>
    have hc := centralRead h hp.sized ((length_localsOf_le h).trans_lt hlocals)
    have hl := localRead h hp.sized
    obtain ⟨hplace, hoffset⟩ := next_places hc hl hp.nameFits
    obtain ⟨rest, hrest⟩ := hc.name
    obtain ⟨rest', hrest'⟩ := hl.contents
    have hname : ((archiveOf ps).drop (centralPlace ps done + 46)).take p.nameBytes.length =
        ((archiveOf ps).drop ((localsOf done).length + 30)).take p.nameBytes.length := by
      rw [hrest, hrest', List.take_left, List.take_left]
    rw [Agrees, hplace, hoffset]
    refine ⟨⟨hc.signature, hl.signature, hc.offset⟩, ⟨hc.method.trans hl.method.symm,
      hc.crc.trans hl.crc.symm, hc.compSize.trans hl.compSize.symm, hc.size.trans hl.size.symm,
      hc.nameLen.trans hl.nameLen.symm, ?_⟩, ⟨hc.crc.trans hp.crc, hc.size.trans hp.size⟩,
      ih (by rw [h, List.append_assoc]; rfl)⟩
    rwa [hc.nameLen, hl.nameLen, Nat.mod_eq_of_lt hp.nameFits]

/-- A number of bytes that are no control characters is larger than all signatures. -/
theorem value_of_no_control {bs : Bytes} (hlength : bs.length = 4) (h : ∀ b ∈ bs, 32 ≤ b.toNat) :
    cenSignature < value bs := by
  obtain ⟨a, b, c, d, rfl⟩ := List.length_eq_four.mp hlength
  have hd := h d (by simp)
  simp only [value, cenSignature]
  omega

/-- Where all records agree no name is longer than its field can say: behind one that is the
reader would have to find a record inside the name. -/
theorem nameFits_of_agrees {ps done todo : List Packed} {fs : List ZipFile}
    (h : ps = done ++ todo) (hlocals : (localsOf ps).length < 256 ^ 4)
    (hsized : ∀ p ∈ todo, Sized p) (hcontrol : ∀ p ∈ todo, ∀ b ∈ p.nameBytes, 32 ≤ b.toNat)
    (hlength : fs.length = todo.length)
    (hagrees : Agrees crc32 (archiveOf ps) (centralPlace ps ps) (localsOf ps).length fs
      (centralPlace ps done) (localsOf done).length) :
    ∀ p ∈ todo, p.nameBytes.length < 256 ^ 2 := by
  induction todo generalizing done fs with
  | nil => exact fun p hp => absurd hp List.not_mem_nil
  | cons p todo ih =>
    obtain ⟨f, fs, rfl⟩ := List.exists_cons_of_length_eq_add_one hlength
    obtain ⟨hp, hsized'⟩ := List.forall_mem_cons.mp hsized
    obtain ⟨hpcontrol, hcontrol'⟩ := List.forall_mem_cons.mp hcontrol
    have hc := centralRead h hp ((length_localsOf_le h).trans_lt hlocals)
    have hl := localRead h hp
    obtain ⟨-, -, -, hrest⟩ := hagrees
    have hfits : p.nameBytes.length < 256 ^ 2 := by
      by_contra hlong
      rw [hc.nameLen, hc.extraLen, hc.commentLen] at hrest
      generalize hk : p.nameBytes.length % 256 ^ 2 = k at hrest
      have hkl : k + 256 ^ 2 ≤ p.nameBytes.length := by omega
      cases todo with
      | nil =>
        rw [List.length_eq_zero_iff.mp (Nat.succ.inj hlength)] at hrest
        have hplace := hrest.1
        rw [h, centralPlace_concat] at hplace
        omega
      | cons q todo =>
        obtain ⟨g, gs, rfl⟩ := List.exists_cons_of_length_eq_add_one (Nat.succ.inj hlength)
        have hsignature := hrest.1.1
        obtain ⟨tail, htail⟩ := hc.name
        have hinside : ((archiveOf ps).drop (centralPlace ps done + 46 + k + 0 + 0)).take 4 =
            (p.nameBytes.drop k).take 4 := by
          rw [Nat.add_zero, Nat.add_zero, ← List.drop_drop, htail,
            List.drop_append_of_le_length (by omega),
            List.take_append_of_le_length (by rw [List.length_drop]; omega)]
        unfold field at hsignature
        rw [hinside] at hsignature
        have hlt : cenSignature < value ((p.nameBytes.drop k).take 4) := value_of_no_control
          (by rw [List.length_take, List.length_drop]; omega)
          (fun b hb => hpcontrol b (List.mem_of_mem_drop (List.mem_of_mem_take hb)))
        omega
    obtain ⟨hplace, hoffset⟩ := next_places hc hl hfits
    rw [hplace, hoffset] at hrest
    exact List.forall_mem_cons.mpr ⟨hfits, ih (by rw [h, List.append_assoc]; rfl) hsized' hcontrol'
      (Nat.succ.inj hlength) hrest⟩

end Agreement

end Klick.Zip
