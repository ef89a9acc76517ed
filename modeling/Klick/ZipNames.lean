-- The names in an archive: they lead nowhere but into the folder that the archive is
-- unpacked to, no two of them are equal, and the cleaned names are kept where they differ.
import Klick.LoneSurrogates
import Klick.LowerCase
import Klick.ZipReader
import Klick.ZipWriter

namespace Klick.Zip

open Js LittleEndian

/-! ## Relative names -/

/-- A part of a path that names something in its folder. -/
structure IsPart (p : Text) : Prop where
  separate : ch '/' ∉ p
  ne_nil : p ≠ []
  ne_dot : p ≠ js "."
  ne_dots : p ≠ js ".."

/-- A path that starts in its folder and stays there: no empty part, no way back, and no
drive. -/
structure Relative (t : Text) : Prop where
  parts : ∀ p ∈ t.splitOn (ch '/'), IsPart p
  safe : ∀ u ∈ t, isUnsafe u = false

theorem splitOn_join {ps : List Text} (hne : ps ≠ []) (h : ∀ p ∈ ps, IsPart p) :
    (join (ch '/') ps).splitOn (ch '/') = ps :=
  List.splitOn_intercalate _ (fun p hp => (h p hp).separate) hne

theorem relative_join {ps : List Text} (hne : ps ≠ []) (h : ∀ p ∈ ps, IsPart p)
    (hsafe : ∀ p ∈ ps, ∀ u ∈ p, isUnsafe u = false) : Relative (join (ch '/') ps) := by
  refine ⟨?_, fun u hu => ?_⟩
  · rwa [splitOn_join hne h]
  · rcases mem_join hu with rfl | ⟨p, hp, hup⟩
    · decide
    · exact hsafe p hp u hup

theorem Relative.ne_nil {t : Text} (h : Relative t) : t ≠ [] := by
  rintro rfl
  exact (h.parts [] (by rw [List.splitOn_nil]; exact List.mem_cons_self)).ne_nil rfl

theorem Relative.join_eq {t : Text} (h : Relative t) :
    ∃ ps, ps ≠ [] ∧ t = join (ch '/') ps ∧ ∀ p ∈ ps, IsPart p := by
  refine ⟨t.splitOn (ch '/'), ?_, (join_splitOn _ t).symm, h.parts⟩
  intro hnil
  have hjoin := join_splitOn (ch '/') t
  rw [hnil] at hjoin
  exact h.ne_nil hjoin.symm

/-- No path of this kind ends with a slash. -/
theorem Relative.no_slash_last {t : Text} (h : Relative t) :
    ¬ (js "/").isSuffixOf t = true := by
  rw [List.isSuffixOf_iff_suffix]
  rintro ⟨r, rfl⟩
  have hlast : [] ∈ (r ++ js "/").splitOn (ch '/') := by
    have hsplit := @List.splitOn_append_cons_self _ _ _ (ch '/') r []
    have hslash : js "/" = [ch '/'] := by decide
    rw [hslash, hsplit, List.splitOn_nil]
    simp
  exact (h.parts [] hlast).ne_nil rfl

/-! ## Cleaned names -/

/-- What stands for a character in a name. -/
def cleaned (u : UInt16) : UInt16 := if isUnsafe u then ch '_' else u

theorem isUnsafe_cleaned (u : UInt16) : isUnsafe (cleaned u) = false := by
  unfold cleaned
  by_cases hu : isUnsafe u = true
  · rw [if_pos hu]
    decide
  · rw [if_neg hu]
    simpa using hu

theorem cleaned_eq {u v : UInt16} (hv : v ≠ ch '_') (h : cleaned u = v) : u = v := by
  unfold cleaned at h
  split_ifs at h
  · exact absurd h.symm hv
  · exact h

theorem map_cleaned_eq {p w : Text} (hw : ∀ v ∈ w, v ≠ ch '_') (h : p.map cleaned = w) :
    p = w := by
  induction p generalizing w with
  | nil => exact h
  | cons u p ih =>
    cases w with
    | nil => cases h
    | cons v w =>
      obtain ⟨hv, hrest⟩ := List.forall_mem_cons.mp hw
      rw [List.map_cons, List.cons.injEq] at h
      rw [cleaned_eq hv h.1, ih hrest h.2]

theorem not_underscore {v : UInt16} (h : v = ch '.') : v ≠ ch '_' := by
  rw [h]
  decide

theorem isPart_cleaned {p : Text} (h : IsPart p) : IsPart (p.map cleaned) := by
  refine ⟨fun hmem => ?_, by simpa using h.ne_nil, fun heq => h.ne_dot ?_,
    fun heq => h.ne_dots ?_⟩
  · obtain ⟨u, hu, heq⟩ := List.mem_map.mp hmem
    rw [cleaned_eq (by decide) heq] at hu
    exact h.separate hu
  · exact map_cleaned_eq (fun v hv => not_underscore (by simpa [js] using hv)) heq
  · exact map_cleaned_eq (fun v hv => not_underscore (by simpa [js] using hv)) heq

theorem isPart_of_safeParts {name p : Text} (h : p ∈ safeParts name) : IsPart p := by
  unfold safeParts at h
  obtain ⟨hmem, hne⟩ := List.mem_filter.mp h
  obtain ⟨q, hq, rfl⟩ := List.mem_map.mp hmem
  obtain ⟨hnil, hdot, hdots⟩ : trim q ≠ [] ∧ trim q ≠ js "." ∧ trim q ≠ js ".." := by
    simpa using hne
  have hslash : ch '/' ∉ q := notMem_of_mem_splitOn hq
  exact ⟨fun hmem => hslash ((trim_sublist q).subset hmem), hnil, hdot, hdots⟩

theorem map_join (f : UInt16 → UInt16) (sep : UInt16) (ps : List Text) :
    (join sep ps).map f = join (f sep) (ps.map (List.map f)) := by
  induction ps with
  | nil => rfl
  | cons p ps ih =>
    cases ps with
    | nil => simp
    | cons q ps =>
      rw [join_cons_cons, List.map_append, List.map_cons, ih]
      simp only [List.map_cons, join_cons_cons]

theorem relative_safeZipName (name : Text) : Relative (safeZipName name) := by
  have hjoin : (join (ch '/') (safeParts name)).map (fun u => if isUnsafe u then ch '_' else u) =
      join (ch '/') ((safeParts name).map (List.map cleaned)) := map_join cleaned (ch '/') _
  unfold safeZipName
  dsimp only
  rw [hjoin]
  by_cases hnil : safeParts name = []
  · have hfile : js "datei" = join (ch '/') [js "datei"] := (join_singleton _ _).symm
    rw [hnil, List.map_nil, join_nil, if_pos rfl, hfile]
    refine relative_join (List.cons_ne_nil _ _) ?_ ?_
    · intro p hp
      rw [List.mem_singleton.mp hp]
      constructor <;> decide
    · intro p hp
      rw [List.mem_singleton.mp hp]
      have hsafe : ((js "datei").all fun u => !isUnsafe u) = true := by decide
      intro u hu
      simpa using List.all_eq_true.mp hsafe u hu
  · have hrelative : Relative (join (ch '/') ((safeParts name).map (List.map cleaned))) := by
      refine relative_join (by simpa using hnil) ?_ ?_
      · intro p hp
        obtain ⟨q, hq, rfl⟩ := List.mem_map.mp hp
        exact isPart_cleaned (isPart_of_safeParts hq)
      · intro p hp u hu
        obtain ⟨q, -, rfl⟩ := List.mem_map.mp hp
        obtain ⟨v, -, rfl⟩ := List.mem_map.mp hu
        exact isUnsafe_cleaned v
    rwa [if_neg hrelative.ne_nil]

/-! ## Numbered names -/

theorem numbered_injective {name : Text} {m n : ℕ} (hm : 1 ≤ m) (hn : 1 ≤ n)
    (h : numbered name m = numbered name n) : m = n := by
  have hlonger (k : ℕ) : name ≠ name ++ ch '.' :: decimal k := by
    intro heq
    have := congrArg List.length heq
    rw [List.length_append, List.length_cons] at this
    omega
  unfold numbered at h
  split_ifs at h with h1 h2 h2
  · omega
  · exact absurd h (hlonger n)
  · exact absurd h.symm (hlonger m)
  · exact decimal_injective (List.cons.inj (List.append_cancel_left h)).2

theorem join_concat_append (sep : UInt16) (ps : List Text) (p s : Text) :
    join sep (ps ++ [p]) ++ s = join sep (ps ++ [p ++ s]) := by
  induction ps with
  | nil => simp
  | cons q ps ih =>
    obtain ⟨r, rs, hr⟩ := List.exists_cons_of_ne_nil (show ps ++ [p] ≠ [] by simp)
    obtain ⟨r', rs', hr'⟩ := List.exists_cons_of_ne_nil (show ps ++ [p ++ s] ≠ [] by simp)
    rw [hr, hr'] at ih
    rw [List.cons_append, List.cons_append, hr, hr', join_cons_cons, join_cons_cons,
      List.append_assoc, List.cons_append, ih]

/-- A number does not lead a name out of its folder. -/
theorem relative_numbered {name : Text} (h : Relative name) (n : ℕ) : Relative (numbered name n) := by
  unfold numbered
  split_ifs with hn
  · exact h
  have hdigit : ∀ u ∈ decimal n, isUnsafe u = false ∧ u ≠ ch '/' := by
    intro u hu
    have hrange := decimal_digits n u hu
    simp only [isDigit, Bool.and_eq_true, decide_eq_true_eq] at hrange
    have hne {v : UInt16} (hv : ¬ (48 ≤ v.toNat ∧ v.toNat ≤ 57)) : u ≠ v := by
      rintro rfl
      exact hv hrange
    refine ⟨?_, hne (by decide)⟩
    rw [isUnsafe, Bool.or_eq_false_iff]
    refine ⟨by simp; omega, ?_⟩
    have hlist : js "\x22<>|:*?" = [ch '\x22', ch '<', ch '>', ch '|', ch ':', ch '*', ch '?'] := by
      decide
    rw [hlist]
    simp only [List.mem_cons, List.not_mem_nil, or_false, decide_eq_false_iff_not, not_or]
    refine ⟨hne ?_, hne ?_, hne ?_, hne ?_, hne ?_, hne ?_, hne ?_⟩ <;> decide
  have hsafe : ∀ u ∈ name ++ ch '.' :: decimal n, isUnsafe u = false := by
    intro u hu
    rcases List.mem_append.mp hu with hu | hu
    · exact h.safe u hu
    · rcases List.mem_cons.mp hu with rfl | hu
      · decide
      · exact (hdigit u hu).1
  refine ⟨?_, hsafe⟩
  obtain ⟨ps, hne, rfl, hps⟩ := h.join_eq
  obtain ⟨qs, q, rfl⟩ := (List.eq_nil_or_concat' ps).resolve_left hne
  have hq := hps q (by simp)
  have hpart : IsPart (q ++ ch '.' :: decimal n) := by
    have hslash : ch '/' ∉ q ++ ch '.' :: decimal n := by
      rw [List.mem_append, List.mem_cons, not_or, not_or]
      exact ⟨hq.separate, by decide, fun hmem => (hdigit _ hmem).2 rfl⟩
    have hlength : 2 < (q ++ ch '.' :: decimal n).length := by
      have hpos := List.length_pos_iff.mpr hq.ne_nil
      have hdecimal := List.length_pos_iff.mpr (decimal_ne_nil n)
      rw [List.length_append, List.length_cons]
      omega
    refine ⟨hslash, ?_, ?_, ?_⟩ <;> intro heq <;> rw [heq] at hlength <;> revert hlength <;> decide
  rw [join_concat_append, splitOn_join (by simp)]
  · intro p hp
    rcases List.mem_append.mp hp with hp | hp
    · exact hps p (List.mem_append_left _ hp)
    · rw [List.mem_singleton.mp hp]
      exact hpart
  · intro p hp
    rcases List.mem_append.mp hp with hp | hp
    · exact hps p (List.mem_append_left _ hp)
    · rw [List.mem_singleton.mp hp]
      exact hpart

/-! ## Names that are not taken -/

/-- Where the search ends at a taken name, all that it has tried are taken. -/
theorem freeFrom_mem {seen : List Text} {name : Text} {fuel n : ℕ}
    (h : freeFrom seen name fuel n ∈ seen) : ∀ k ≤ fuel, numbered name (n + k) ∈ seen := by
  induction fuel generalizing n with
  | zero =>
    intro k hk
    obtain rfl := Nat.le_zero.mp hk
    exact h
  | succ fuel ih =>
    unfold freeFrom at h
    split_ifs at h with hseen
    · intro k hk
      cases k with
      | zero => exact hseen
      | succ k =>
        have := ih h k (by omega)
        rwa [show n + 1 + k = n + (k + 1) by omega] at this
    · exact absurd h hseen

/-- One of the names tried is free, since there are more of them than taken names. -/
theorem freeName_notMem (seen : List Text) (name : Text) : freeName seen name ∉ seen := by
  intro hmem
  have htried := freeFrom_mem hmem
  have hnodup : ((List.range (seen.length + 1)).map fun k => numbered name (1 + k)).Nodup := by
    refine List.Nodup.map_on ?_ List.nodup_range
    intro i _ j _ heq
    have := numbered_injective (by omega) (by omega) heq
    omega
  have hsubset : ((List.range (seen.length + 1)).map fun k => numbered name (1 + k)) ⊆ seen := by
    intro t ht
    obtain ⟨k, hk, rfl⟩ := List.mem_map.mp ht
    exact htried k (by rw [List.mem_range] at hk; omega)
  have hlength := (List.subperm_of_subset hnodup hsubset).length_le
  rw [List.length_map, List.length_range] at hlength
  omega

/-- A free name is the name with some number. -/
theorem freeFrom_eq (seen : List Text) (name : Text) (fuel n : ℕ) :
    ∃ k, n ≤ k ∧ freeFrom seen name fuel n = numbered name k := by
  induction fuel generalizing n with
  | zero => exact ⟨n, le_rfl, rfl⟩
  | succ fuel ih =>
    unfold freeFrom
    split_ifs
    · obtain ⟨k, hk, heq⟩ := ih (n + 1)
      exact ⟨k, by omega, heq⟩
    · exact ⟨n, le_rfl, rfl⟩

theorem freeName_of_notMem {seen : List Text} {name : Text} (h : name ∉ seen) :
    freeName seen name = name := by
  have hfirst : numbered name 1 = name := if_pos le_rfl
  unfold freeName
  cases seen.length with
  | zero => exact hfirst
  | succ n =>
    rw [freeFrom, hfirst, if_neg h]

/-! ## The names of an archive -/

/-- The names under which entries stand in the archive, after some taken ones. -/
def archiveNames : List Text → List ZipEntry → List Text
  | _, [] => []
  | seen, e :: es =>
    let name := freeName seen (safeZipName e.name)
    name :: archiveNames (name :: seen) es

/-- The names of an archive differ from each other and from the taken ones. -/
theorem archiveNames_nodup (seen : List Text) (es : List ZipEntry) :
    (archiveNames seen es).Nodup ∧ ∀ a ∈ archiveNames seen es, a ∉ seen := by
  induction es generalizing seen with
  | nil => exact ⟨List.nodup_nil, fun a ha => absurd ha List.not_mem_nil⟩
  | cons e es ih =>
    obtain ⟨hnodup, hfree⟩ := ih (freeName seen (safeZipName e.name) :: seen)
    rw [archiveNames]
    refine ⟨List.nodup_cons.mpr ⟨fun hmem => hfree _ hmem List.mem_cons_self, hnodup⟩, ?_⟩
    intro a ha
    rcases List.mem_cons.mp ha with rfl | ha
    · exact freeName_notMem seen _
    · exact fun hseen => hfree a ha (List.mem_cons_of_mem _ hseen)

/-- The names are the cleaned ones exactly where these differ. -/
theorem archiveNames_eq_iff (seen : List Text) (es : List ZipEntry) :
    archiveNames seen es = es.map (fun e => safeZipName e.name) ↔
      (es.map fun e => safeZipName e.name).Nodup ∧
        ∀ a ∈ es.map (fun e => safeZipName e.name), a ∉ seen := by
  constructor
  · intro heq
    rw [← heq]
    exact archiveNames_nodup seen es
  · intro h
    induction es generalizing seen with
    | nil => rfl
    | cons e es ih =>
      obtain ⟨hnodup, hfree⟩ := h
      rw [List.map_cons, List.nodup_cons] at hnodup
      obtain ⟨hfirst, hrest⟩ := List.forall_mem_cons.mp hfree
      rw [archiveNames, freeName_of_notMem hfirst, List.map_cons]
      congr 1
      apply ih
      refine ⟨hnodup.2, fun a ha hmem => ?_⟩
      rcases List.mem_cons.mp hmem with rfl | hmem
      · exact hnodup.1 ha
      · exact hrest a ha hmem

/-- A name of an archive is a cleaned name with a number. -/
theorem mem_archiveNames {seen : List Text} {es : List ZipEntry} {a : Text}
    (h : a ∈ archiveNames seen es) : ∃ e ∈ es, ∃ k, a = numbered (safeZipName e.name) k := by
  induction es generalizing seen with
  | nil => exact absurd h List.not_mem_nil
  | cons e es ih =>
    rw [archiveNames] at h
    rcases List.mem_cons.mp h with rfl | h
    · obtain ⟨k, -, heq⟩ := freeFrom_eq seen (safeZipName e.name) seen.length 1
      exact ⟨e, List.mem_cons_self, k, heq⟩
    · obtain ⟨e', he', k, heq⟩ := ih h
      exact ⟨e', List.mem_cons_of_mem e he', k, heq⟩

theorem relative_archiveNames {seen : List Text} {es : List ZipEntry} {a : Text}
    (h : a ∈ archiveNames seen es) : Relative a := by
  obtain ⟨e, -, k, rfl⟩ := mem_archiveNames h
  exact relative_numbered (relative_safeZipName e.name) k

/-! ## Names as they are read -/

/-- The first character of a name. -/
theorem head_trim {t : Text} {u : UInt16} (h : (trim t).head? = some u) : isTrimmed u = false := by
  have hprefix : trim t <+: t.dropWhile isTrimmed := List.rdropWhile_prefix isTrimmed _
  obtain ⟨r, hr⟩ := hprefix
  have hhead : (t.dropWhile isTrimmed).head? = some u := by
    rw [← hr, List.head?_append, h]
    rfl
  have := List.head?_dropWhile_not isTrimmed t
  rw [hhead] at this
  simpa using this

/-- No cleaned name starts with a byte order mark. -/
theorem safeZipName_head (name : Text) : (safeZipName name).head? ≠ some 0xfeff := by
  unfold safeZipName
  dsimp only
  split_ifs with hnil
  · decide
  · intro hhead
    cases hparts : safeParts name with
    | nil => rw [hparts] at hnil; exact hnil rfl
    | cons p ps =>
      have hp : p ∈ safeParts name := by rw [hparts]; exact List.mem_cons_self
      obtain ⟨u, r, rfl⟩ := List.exists_cons_of_ne_nil (isPart_of_safeParts hp).ne_nil
      have hjoin : (join (ch '/') (safeParts name)).head? = some u := by
        rw [hparts]
        cases ps with
        | nil => rfl
        | cons q ps => rw [join_cons_cons]; rfl
      rw [List.head?_map, hjoin, Option.map_some, Option.some.injEq] at hhead
      have hu : u = 0xfeff := cleaned_eq (by decide) hhead
      obtain ⟨hmem, -⟩ := List.mem_filter.mp hp
      obtain ⟨q, -, hq⟩ := List.mem_map.mp hmem
      have hblank := head_trim (t := q) (u := u) (by rw [hq]; rfl)
      rw [hu] at hblank
      revert hblank
      decide

theorem archiveNames_head {seen : List Text} {es : List ZipEntry} {a : Text}
    (h : a ∈ archiveNames seen es) : a.head? ≠ some 0xfeff := by
  obtain ⟨e, -, k, rfl⟩ := mem_archiveNames h
  have hne := (relative_safeZipName e.name).ne_nil
  have hhead := safeZipName_head e.name
  unfold numbered
  split_ifs
  · exact hhead
  · rw [List.head?_append]
    cases hname : safeZipName e.name with
    | nil => exact absurd hname hne
    | cons u r =>
      rw [hname] at hhead
      exact hhead

/-- The name that is read is the one written, but for lone surrogates. -/
theorem decodeName_utf8 {a : Text} (h : a.head? ≠ some 0xfeff) :
    decodeName (utf8 a) = toWellFormed a := by
  unfold decodeName
  by_cases hmark : [0xef, 0xbb, 0xbf].isPrefixOf (utf8 a) = true
  · exfalso
    obtain ⟨rest, hrest⟩ := List.isPrefixOf_iff_prefix.mp hmark
    have hbytes : utf8 [0xfeff] = [0xef, 0xbb, 0xbf] := by decide
    have hdecode := utf8Decode_utf8_eq a
    rw [← hrest, ← hbytes, utf8Decode_append (.unit (by decide) .nil)] at hdecode
    have hkept := forall₂_toWellFormed a
    rw [← hdecode] at hkept
    cases hkept with
    | cons hu _ =>
      rcases hu with heq | ⟨-, heq⟩
      · rw [← heq] at h
        exact h rfl
      · revert heq
        decide
  · rw [if_neg hmark, utf8Decode_utf8_eq]

theorem isUnsafe_kept {u v : UInt16} (h : KeptOr u v) (hu : isUnsafe u = false) :
    isUnsafe v = false := by
  rcases h with rfl | ⟨-, rfl⟩
  · exact hu
  · decide

/-- Replacing lone surrogates does not lead a name out of its folder. -/
theorem relative_toWellFormed {t : Text} (h : Relative t) : Relative (toWellFormed t) := by
  have hkept := forall₂_toWellFormed t
  have hslash : ∀ u v, KeptOr u v → (u = ch '/' ↔ v = ch '/') := fun u v huv =>
    keptOr_iff (by decide) (by decide) huv
  constructor
  · intro p hp
    have hparts := forall₂_splitOn hslash hkept
    obtain ⟨i, hi, rfl⟩ := List.getElem_of_mem hp
    have hi' : i < (t.splitOn (ch '/')).length := by rwa [hparts.length_eq]
    have hpart := List.Forall₂.get hparts hi' hi
    have hold := h.parts _ (List.getElem_mem hi')
    have hdots {w : Text} (hw : ∀ u ∈ w, u = ch '.') (hne : (t.splitOn (ch '/'))[i] ≠ w) :
        (List.splitOn (ch '/') (toWellFormed t))[i] ≠ w := by
      intro heq
      apply hne
      refine (forall₂_keptOr_iff (fun u hu => ?_) hpart).mpr heq
      rw [hw u hu]
      exact ⟨by decide, by decide⟩
    refine ⟨notMem_of_mem_splitOn hp, hdots (by simp) hold.ne_nil, hdots ?_ hold.ne_dot,
      hdots ?_ hold.ne_dots⟩
    · intro u hu
      simpa [js] using hu
    · intro u hu
      simpa [js] using hu
  · intro v hv
    obtain ⟨i, hi, rfl⟩ := List.getElem_of_mem hv
    have hi' : i < t.length := by rwa [hkept.length_eq]
    exact isUnsafe_kept (List.Forall₂.get hkept hi' hi) (h.safe _ (List.getElem_mem hi'))

/-- The bytes of a name are no control characters. -/
theorem utf8_no_control {t : Text} (h : ∀ u ∈ t, 32 ≤ u.toNat) : ∀ b ∈ utf8 t, 32 ≤ b.toNat := by
  have hbyte {n : ℕ} (hn : 128 ≤ n ∧ n < 256) : 32 ≤ (byte n).toNat := by
    rw [byte_toNat hn.2]
    omega
  have hunit {u : UInt16} (hu : 32 ≤ u.toNat) : ∀ b ∈ utf8Unit u, 32 ≤ b.toNat := by
    have hlt := u.toNat_lt
    intro b hb
    unfold utf8Unit at hb
    split_ifs at hb with h1 h2 h3
    · rw [List.mem_singleton.mp hb, byte_toNat (by omega)]
      exact hu
    · simp only [List.mem_cons, List.not_mem_nil, or_false] at hb
      rcases hb with rfl | rfl <;> exact hbyte (by omega)
    · simp only [List.mem_cons, List.not_mem_nil, or_false] at hb
      rcases hb with rfl | rfl | rfl <;> decide
    · simp only [List.mem_cons, List.not_mem_nil, or_false] at hb
      rcases hb with rfl | rfl | rfl <;> exact hbyte (by omega)
  have hpair (u v : UInt16) (huv : isHighSurrogate u = true ∧ isLowSurrogate v = true) :
      ∀ b ∈ utf8Pair u v, 32 ≤ b.toNat := by
    simp only [isHighSurrogate, isLowSurrogate, Bool.and_eq_true, decide_eq_true_eq] at huv
    have hvalue : pairValue u v < 0x110000 := by
      unfold pairValue
      omega
    intro b hb
    simp only [utf8Pair, List.mem_cons, List.not_mem_nil, or_false] at hb
    rcases hb with rfl | rfl | rfl | rfl <;> exact hbyte (by omega)
  fun_induction utf8 t with
  | case1 => exact fun b hb => absurd hb List.not_mem_nil
  | case2 u => exact hunit (h u List.mem_cons_self)
  | case3 u v r huv ih =>
    intro b hb
    rcases List.mem_append.mp hb with hb | hb
    · exact hpair u v (by simpa using huv) b hb
    · exact ih (fun w hw => h w (List.mem_cons_of_mem _ (List.mem_cons_of_mem _ hw))) b hb
  | case4 u v r _ ih =>
    intro b hb
    rcases List.mem_append.mp hb with hb | hb
    · exact hunit (h u List.mem_cons_self) b hb
    · exact ih (fun w hw => h w (List.mem_cons_of_mem _ hw)) b hb

theorem Relative.no_control {t : Text} (h : Relative t) : ∀ b ∈ utf8 t, 32 ≤ b.toNat := by
  apply utf8_no_control
  intro u hu
  by_contra hlt
  have hsafe := h.safe u hu
  rw [isUnsafe, Bool.or_eq_false_iff] at hsafe
  have := hsafe.1
  simp at this
  omega

end Klick.Zip
