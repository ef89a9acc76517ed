-- Screening of addresses (`lib/wallet/screening.ts`, `lib/wallet/ofac.ts` and `lib/db/sanctions.ts`):
-- a list is brought to one spelling when it is imported, again when it is loaded, and the
-- senders of a transfer are looked up in the spelling that the node gives.
import Klick.Interleaving
import Klick.LowerCase
import Klick.Transfers

open Js Interleaving

namespace Klick.Screening

/-! ## The list -/

def chainText : NetworkChain → Text
  | .bitcoin => js "bitcoin"
  | .ethereum => js "ethereum"

inductive SanctionSource
  | ofac | platform
deriving DecidableEq, Repr

def SanctionSource.text : SanctionSource → Text
  | ofac => js "ofac"
  | platform => js "platform"

/-- An entry of a list that is imported. -/
structure ListEntry where
  chain : NetworkChain
  address : Text
  reference : Text
deriving DecidableEq

structure SanctionRow where
  chain : NetworkChain
  address : Text
  source : SanctionSource
  reference : Option Text
  listVersion : Text
deriving DecidableEq

/-- The unique index. -/
def SanctionRow.key (r : SanctionRow) : NetworkChain × Text × SanctionSource :=
  (r.chain, r.address, r.source)

structure SanctionEntry where
  reference : Option Text
  source : SanctionSource
deriving DecidableEq

/-- `/^(bc1|tb1)/i` -/
def isBech32 (t : Text) : Bool :=
  lowerAscii (t.take 3) = js "bc1" || lowerAscii (t.take 3) = js "tb1"

/-- `toLowerCase` does not change how an address begins. -/
structure AddressCase extends LowerCase where
  lower_bech32 : ∀ t, isBech32 (lower t) = isBech32 t

/-- Addresses of ASCII. -/
def asciiAddresses : AddressCase where
  toLowerCase := asciiCase
  lower_bech32 t := by
    have hfront : lowerAscii ((lowerAscii t).take 3) = lowerAscii (t.take 3) := by
      have htake : (lowerAscii t).take 3 = lowerAscii (t.take 3) := List.map_take.symm
      rw [htake]
      exact asciiCase.lower_lower _
    change isBech32 (lowerAscii t) = isBech32 t
    simp only [isBech32, hfront]

section Spelling

variable (L : AddressCase)

/-- `sanctionKey` -/
def sanctionKey (chain : NetworkChain) (address : Text) : Text :=
  chainText chain ++ ch ':' :: (if chain = .ethereum then L.lower address else trim address)

/-- The spelling of an entry in the table. -/
def storedAddress (e : ListEntry) : Text :=
  if e.chain = .ethereum || isBech32 e.address then L.lower e.address else trim e.address

structure ImportCounts where
  inserted : ℕ
  removed : ℕ
  total : ℕ
deriving DecidableEq

/-- `replaceSanctionList`; an empty list is an error. -/
def replaceSanctionList (rows : List SanctionRow) (source : SanctionSource) (listVersion : Text)
    (entries : List ListEntry) : Option (List SanctionRow × ImportCounts) :=
  if entries = [] then none
  else
    let norm : List SanctionRow := entries.map fun e =>
      ⟨e.chain, storedAddress L e, source, some e.reference, listVersion⟩
    let before := (rows.filter fun r => r.source = source).map fun r => (r.chain, r.address)
    let written := norm.foldl (upsert SanctionRow.key) rows
    let kept := written.filter fun r => r.source ≠ source || r.listVersion = listVersion
    let fresh := (norm.map fun r => (r.chain, r.address)).filter (· ∉ before)
    some (kept, ⟨(distinct fresh).length, written.length - kept.length, norm.length⟩)

/-- A `ReadonlyMap` from `chain:address` -/
abbrev SanctionSet := Text → Option SanctionEntry

/-- `loadSanctionSet`: of two rows with one key, the later one. -/
def loadSanctionSet (rows : List SanctionRow) : SanctionSet := fun key =>
  (rows.reverse.find? fun r => sanctionKey L r.chain r.address = key).map fun r =>
    ⟨r.reference, r.source⟩

/-- `/^0x[0-9a-fA-F]{40}$/` -/
def isEvmAddress (t : Text) : Bool :=
  t.take 2 = js "0x" && t.length = 42 && (lowerAscii (t.drop 2)).all isHexLower

/-- `classifyAddress`; whether a text is an address of the Bitcoin network is told by a library. -/
def classifyAddress (decodes : Text → Bool) (raw : Text) : Option (NetworkChain × Text) :=
  let v := trim raw
  if isEvmAddress v then some (.ethereum, L.lower v)
  else if decodes v then
    some (.bitcoin, if lowerAscii (v.take 3) = js "bc1" then L.lower v else v)
  else none

/-! ## Screening -/

def refText (hit : SanctionEntry) (s : Text) : Text :=
  hit.source.text ++ ch ':' :: (s ++ match hit.reference with
    | some r => if r = [] then [] else js " (" ++ (r ++ js ")")
    | none => [])

/-- A sender is looked up as it is written and, for Bitcoin, in lower case. -/
def sourceHit (chain : NetworkChain) (set : SanctionSet) (s : Text) : Option SanctionEntry :=
  match set (sanctionKey L chain s) with
  | some hit => some hit
  | none => if chain = .bitcoin then set (sanctionKey L chain (L.lower s)) else none

/-- `screenSources` -/
def screenSources (chain : NetworkChain) (set : SanctionSet) : List (Option Text) → ScreeningOutcome
  | [] => ⟨.clear, none⟩
  | s :: rest =>
    match s.filter (· ≠ []) with
    | none => screenSources chain set rest
    | some s =>
      match sourceHit L chain set s with
      | some hit => ⟨.hit, some (refText hit s)⟩
      | none => screenSources chain set rest

/-! ## Addresses -/

/-- The address that a text spells, apart from blanks around it: Ethereum and Bech32 know no
capital letters. -/
def addressOf (chain : NetworkChain) (t : Text) : Text :=
  if chain = .ethereum || isBech32 (trim t) then L.lower (trim t) else trim t

/-- The lists that were imported last. -/
structure Lists where
  ofac : List ListEntry
  platform : List ListEntry

def Lists.of (lists : Lists) : SanctionSource → List ListEntry
  | .ofac => lists.ofac
  | .platform => lists.platform

def Lists.all (lists : Lists) : List ListEntry := lists.ofac ++ lists.platform

def Lists.set (lists : Lists) (entries : List ListEntry) : SanctionSource → Lists
  | .ofac => { lists with ofac := entries }
  | .platform => { lists with platform := entries }

/-- An address is in the latest list of some source. -/
def Listed (lists : Lists) (chain : NetworkChain) (s : Text) : Prop :=
  ∃ e ∈ lists.all, e.chain = chain ∧ addressOf L chain e.address = addressOf L chain s

instance (lists : Lists) (chain : NetworkChain) (s : Text) : Decidable (Listed L lists chain s) :=
  inferInstanceAs (Decidable (∃ e ∈ lists.all, _))

/-- An entry is spelled so that the table holds its address: no blanks around an address of
Ethereum, none before a Bech32 address with capital letters. -/
def ListEntry.Plain (e : ListEntry) : Prop :=
  if e.chain = .ethereum then trim e.address = e.address
  else isBech32 (trim e.address) = true →
    isBech32 e.address = true ∨ L.lower (trim e.address) = trim e.address

instance (e : ListEntry) : Decidable (e.Plain L) := by
  unfold ListEntry.Plain
  infer_instance

end Spelling

/-! ## Spellings -/

theorem trim_eq (t : Text) : trim t = (t.dropWhile isTrimmed).rdropWhile isTrimmed := rfl

theorem trim_trim (t : Text) : trim (trim t) = trim t := by
  have hfront : (trim t).dropWhile isTrimmed = trim t := by
    rw [List.dropWhile_eq_self_iff]
    intro hl
    have hpre : trim t <+: t.dropWhile isTrimmed := List.rdropWhile_prefix _ _
    have hd := List.dropWhile_eq_self_iff.mp (List.dropWhile_idempotent isTrimmed t)
    rw [hpre.getElem hl]
    exact hd (hl.trans_le hpre.length_le)
  rw [trim_eq (trim t), hfront, trim_eq, List.rdropWhile_idempotent]

/-- Signs at the front that are no blanks stay there. -/
theorem trim_append {w : Text} (hne : w ≠ []) (h : ∀ u ∈ w, isTrimmed u = false) (rest : Text) :
    ∃ rest', trim (w ++ rest) = w ++ rest' := by
  have hfront : (w ++ rest).dropWhile isTrimmed = w ++ rest := by
    cases w with
    | nil => exact absurd rfl hne
    | cons u w => exact List.dropWhile_cons_of_neg (by simp [h u List.mem_cons_self])
  have hback : w.reverse.dropWhile isTrimmed = w.reverse := by
    rw [List.dropWhile_eq_self_iff]
    intro hl
    exact Bool.not_eq_true _ ▸ h _ (List.mem_reverse.mp (List.getElem_mem hl))
  rw [trim_eq, hfront, List.rdropWhile, List.reverse_append, List.dropWhile_append, hback]
  split_ifs
  · exact ⟨[], by simp⟩
  · exact ⟨(rest.reverse.dropWhile isTrimmed).reverse, by simp⟩

/-- Blanks behind an address leave its beginning. -/
theorem isBech32_trim {t : Text} (h : isBech32 t = true) : isBech32 (trim t) = true := by
  unfold isBech32 at h
  rw [Bool.or_eq_true, decide_eq_true_eq, decide_eq_true_eq] at h
  have hblank : ∀ u ∈ js "bc1" ++ js "tb1", isTrimmed u = false := by
    have hall : (js "bc1" ++ js "tb1").all (fun u => !isTrimmed u) = true := by decide
    intro u hu
    simpa using List.all_eq_true.mp hall u hu
  have hvisible : ∀ u ∈ t.take 3, isTrimmed u = false := by
    intro u hu
    have hin : lowerUnit u ∈ lowerAscii (t.take 3) := List.mem_map_of_mem hu
    rw [← isTrimmed_lowerUnit]
    rcases h with h | h <;> rw [h] at hin
    · exact hblank _ (List.mem_append_left _ hin)
    · exact hblank _ (List.mem_append_right _ hin)
  have hlen : (t.take 3).length = 3 := by
    have hmap : (lowerAscii (t.take 3)).length = (t.take 3).length := List.length_map _
    rcases h with h | h <;> rw [← hmap, h] <;> decide
  have hne : t.take 3 ≠ [] := by
    intro hnil
    rw [hnil] at hlen
    cases hlen
  obtain ⟨rest, htrim⟩ := trim_append hne hvisible (t.drop 3)
  rw [List.take_append_drop] at htrim
  unfold isBech32
  rw [htrim, List.take_append_of_le_length hlen.ge, List.take_take]
  simpa using h

variable {L : AddressCase} {chain : NetworkChain} {lists : Lists}

theorem addressOf_trim (t : Text) : addressOf L chain (trim t) = addressOf L chain t := by
  unfold addressOf
  rw [trim_trim]

theorem addressOf_addressOf (t : Text) :
    addressOf L chain (addressOf L chain t) = addressOf L chain t := by
  have htrim : trim (L.lower (trim t)) = L.lower (trim t) := by
    rw [← L.lower_trim, trim_trim]
  by_cases hcase : (decide (chain = .ethereum) || isBech32 (trim t)) = true
  · have hfirst : addressOf L chain t = L.lower (trim t) := if_pos hcase
    have hagain : (decide (chain = .ethereum) || isBech32 (L.lower (trim t))) = true := by
      rw [L.lower_bech32]
      exact hcase
    rw [hfirst]
    unfold addressOf
    rw [htrim, if_pos hagain, L.lower_lower]
  · have hfirst : addressOf L chain t = trim t := if_neg hcase
    rw [hfirst, addressOf_trim, hfirst]

/-- **The key of a plain entry tells its address.** -/
theorem ListEntry.Plain.key {e : ListEntry} (h : e.Plain L) :
    sanctionKey L e.chain (storedAddress L e) =
      chainText e.chain ++ ch ':' :: addressOf L e.chain e.address := by
  unfold sanctionKey
  congr 2
  unfold ListEntry.Plain at h
  unfold storedAddress addressOf
  by_cases hchain : e.chain = .ethereum
  · rw [if_pos hchain] at h
    simp [hchain, h, L.lower_lower]
  · rw [if_neg hchain] at h
    by_cases hbech : isBech32 e.address = true
    · simp [hchain, hbech, isBech32_trim hbech, L.lower_trim]
    · by_cases htrimmed : isBech32 (trim e.address) = true
      · have hlow : L.lower (trim e.address) = trim e.address := (h htrimmed).resolve_left hbech
        simp [hchain, hbech, htrimmed, trim_trim, hlow]
      · simp [hchain, hbech, htrimmed, trim_trim]

/-- What is read from the list of the OFAC is plain. -/
theorem classifyAddress_plain {decodes : Text → Bool} {raw : Text} {c : NetworkChain} {a : Text}
    (h : classifyAddress L decodes raw = some (c, a)) (reference : Text) :
    ListEntry.Plain L ⟨c, a, reference⟩ := by
  have hlow : trim (L.lower (trim raw)) = L.lower (trim raw) := by
    rw [← L.lower_trim, trim_trim]
  have htrimmed : trim a = a := by
    unfold classifyAddress at h
    dsimp only at h
    split_ifs at h
    · cases h
      exact hlow
    · cases h
      exact hlow
    · cases h
      exact trim_trim raw
  unfold ListEntry.Plain
  split_ifs
  · exact htrimmed
  · intro hbech
    rw [htrimmed] at hbech
    exact .inl hbech

theorem chainText_append {c c' : NetworkChain} {s t : Text}
    (h : chainText c ++ ch ':' :: s = chainText c' ++ ch ':' :: t) : c = c' ∧ s = t := by
  have hfree : ∀ c, ch ':' ∉ chainText c := by
    intro c
    cases c <;> decide
  obtain ⟨htext, hrest⟩ := append_cons_cancel (hfree c) (hfree c') h
  refine ⟨?_, hrest⟩
  cases c <;> cases c' <;> first | rfl | exact absurd htext (by decide)

/-! ## Looking up -/

theorem loadSanctionSet_isSome {rows : List SanctionRow} {key : Text} :
    (loadSanctionSet L rows key).isSome = true ↔
      ∃ r ∈ rows, sanctionKey L r.chain r.address = key := by
  simp [loadSanctionSet]

/-- The table holds the lists that were imported last, source by source. -/
def Holds (L : AddressCase) (rows : List SanctionRow) (lists : Lists) : Prop :=
  ∀ k : NetworkChain × Text × SanctionSource, (∃ r ∈ rows, r.key = k) ↔
    ∃ e ∈ lists.of k.2.2, e.chain = k.1 ∧ storedAddress L e = k.2.1

theorem mem_all {e : ListEntry} : e ∈ lists.all ↔ ∃ source, e ∈ lists.of source := by
  unfold Lists.all
  rw [List.mem_append]
  constructor
  · rintro (h | h)
    · exact ⟨.ofac, h⟩
    · exact ⟨.platform, h⟩
  · rintro ⟨source, h⟩
    cases source with
    | ofac => exact .inl h
    | platform => exact .inr h

/-- A key is in the set if and only if its address is that of an entry. -/
theorem Holds.lookup {rows : List SanctionRow} (h : Holds L rows lists)
    (hplain : ∀ e ∈ lists.all, e.Plain L) (t : Text) :
    (loadSanctionSet L rows (chainText chain ++ ch ':' :: t)).isSome = true ↔
      ∃ e ∈ lists.all, e.chain = chain ∧ addressOf L chain e.address = t := by
  rw [loadSanctionSet_isSome]
  constructor
  · rintro ⟨r, hr, hkey⟩
    obtain ⟨e, he, hchain, haddr⟩ := (h r.key).mp ⟨r, hr, rfl⟩
    have hmem : e ∈ lists.all := mem_all.2 ⟨_, he⟩
    have hk := (hplain e hmem).key
    have hr' : sanctionKey L e.chain (storedAddress L e) = sanctionKey L r.chain r.address := by
      rw [hchain, haddr]
      rfl
    rw [hr', hkey] at hk
    obtain ⟨hc, ht⟩ := chainText_append hk
    exact ⟨e, hmem, hc.symm, by rw [hc, ht]⟩
  · rintro ⟨e, he, rfl, rfl⟩
    obtain ⟨source, hsource⟩ := mem_all.1 he
    obtain ⟨r, hr, hkey⟩ := (h (e.chain, storedAddress L e, source)).mpr ⟨e, hsource, rfl, rfl⟩
    refine ⟨r, hr, ?_⟩
    rw [← (hplain e he).key]
    simp only [SanctionRow.key, Prod.mk.injEq] at hkey
    rw [hkey.1, hkey.2.1]

/-- What the first lookup finds is a listed address. -/
theorem listed_of_addressOf_eq {e : ListEntry} {s : Text} (he : e ∈ lists.all)
    (hchain : e.chain = chain) (h : addressOf L chain e.address = trim s) :
    Listed L lists chain s := by
  refine ⟨e, he, hchain, ?_⟩
  rw [← addressOf_addressOf, h, addressOf_trim]

/-- **Each listed sender is found**; of Bitcoin, also one whose lower case is listed. -/
theorem Holds.sourceHit {rows : List SanctionRow} (h : Holds L rows lists)
    (hplain : ∀ e ∈ lists.all, e.Plain L) {s : Text} (hs : chain = .ethereum → trim s = s) :
    (sourceHit L chain (loadSanctionSet L rows) s).isSome = true ↔
      Listed L lists chain s ∨ (chain = .bitcoin ∧ Listed L lists chain (L.lower s)) := by
  cases chain with
  | ethereum =>
    have hkey : sanctionKey L .ethereum s =
        chainText .ethereum ++ ch ':' :: addressOf L .ethereum s := by
      simp [sanctionKey, addressOf, hs rfl]
    have hhit : sourceHit L .ethereum (loadSanctionSet L rows) s =
        loadSanctionSet L rows (sanctionKey L .ethereum s) := by
      unfold Screening.sourceHit
      split
      · rename_i hsome
        exact hsome.symm
      · rename_i hnone
        rw [hnone]
        rfl
    rw [hhit, hkey, h.lookup hplain]
    simp [Listed]
  | bitcoin =>
    have hkey : ∀ t, sanctionKey L .bitcoin t = chainText .bitcoin ++ ch ':' :: trim t :=
      fun t => rfl
    have hhit : (Screening.sourceHit L .bitcoin (loadSanctionSet L rows) s).isSome = true ↔
        (loadSanctionSet L rows (sanctionKey L .bitcoin s)).isSome = true ∨
          (loadSanctionSet L rows (sanctionKey L .bitcoin (L.lower s))).isSome = true := by
      unfold Screening.sourceHit
      split
      · rename_i hsome
        simp [hsome]
      · rename_i hnone
        simp [hnone]
    rw [hhit, hkey, hkey, h.lookup hplain, h.lookup hplain]
    constructor
    · rintro (⟨e, he, hc, haddr⟩ | ⟨e, he, hc, haddr⟩)
      · exact .inl (listed_of_addressOf_eq he hc haddr)
      · exact .inr ⟨rfl, listed_of_addressOf_eq he hc haddr⟩
    · have hfound : ∀ t, Listed L lists .bitcoin t →
          (∃ e ∈ lists.all, e.chain = .bitcoin ∧ addressOf L .bitcoin e.address = trim t) ∨
            ∃ e ∈ lists.all, e.chain = .bitcoin ∧
              addressOf L .bitcoin e.address = trim (L.lower t) := by
        rintro t ⟨e, he, hc, haddr⟩
        unfold addressOf at haddr ⊢
        by_cases hbech : isBech32 (trim t) = true
        · rw [← L.lower_trim]
          exact .inr ⟨e, he, hc, haddr.trans (if_pos (by simp [hbech]))⟩
        · exact .inl ⟨e, he, hc, haddr.trans (if_neg (by simp [hbech]))⟩
      rintro (hlisted | ⟨-, hlisted⟩)
      · exact hfound s hlisted
      · have hlow := hfound _ hlisted
        rw [L.lower_lower, or_self] at hlow
        exact .inr hlow

/-! ## Imports -/

theorem Lists.of_set (lists : Lists) (entries : List ListEntry) (source other : SanctionSource) :
    (lists.set entries source).of other = if other = source then entries else lists.of other := by
  cases source <;> cases other <;> rfl

/-- **An import leaves its own entries and those of the other sources**, if each row of its version
is one of its entries. -/
theorem Holds.replace {rows rows' : List SanctionRow} (h : Holds L rows lists)
    {source : SanctionSource} {listVersion : Text} {entries : List ListEntry} {counts : ImportCounts}
    (hrun : replaceSanctionList L rows source listVersion entries = some (rows', counts))
    (hversion : ∀ r ∈ rows, r.source = source → r.listVersion = listVersion →
      ∃ e ∈ entries, e.chain = r.chain ∧ storedAddress L e = r.address) :
    Holds L rows' (lists.set entries source) := by
  simp only [replaceSanctionList, Option.ite_none_left_eq_some, Option.some.injEq,
    Prod.mk.injEq] at hrun
  obtain ⟨-, rfl, -⟩ := hrun
  rintro ⟨c, a, src⟩
  rw [Lists.of_set]
  by_cases hsrc : src = source
  · subst hsrc
    rw [if_pos rfl]
    constructor
    · rintro ⟨r, hr, hkey⟩
      obtain ⟨hwritten, hkept⟩ := List.mem_filter.mp hr
      simp only [SanctionRow.key, Prod.mk.injEq] at hkey
      rcases mem_upserts hwritten with hnorm | ⟨hold, -⟩
      · obtain ⟨e, he, rfl⟩ := List.mem_map.mp hnorm
        exact ⟨e, he, hkey.1, hkey.2.1⟩
      · obtain ⟨rfl, rfl, hsource⟩ := hkey
        exact hversion r hold hsource (by simpa [hsource] using hkept)
    · rintro ⟨e, he, rfl, rfl⟩
      obtain ⟨z, hz, hnorm, hkey⟩ := exists_mem_upserts SanctionRow.key (List.mem_map_of_mem he)
      obtain ⟨e', -, rfl⟩ := List.mem_map.mp hnorm
      exact ⟨_, List.mem_filter.mpr ⟨hz, by simp⟩, hkey⟩
  · rw [if_neg hsrc, ← h (c, a, src)]
    constructor
    · rintro ⟨r, hr, hkey⟩
      rcases mem_upserts (List.mem_filter.mp hr).1 with hnorm | ⟨hold, -⟩
      · obtain ⟨e, -, rfl⟩ := List.mem_map.mp hnorm
        simp only [SanctionRow.key, Prod.mk.injEq] at hkey
        exact absurd hkey.2.2.symm hsrc
      · exact ⟨r, hold, hkey⟩
    · rintro ⟨r, hr, hkey⟩
      have hother : r.source = src := congrArg (·.2.2) hkey
      refine ⟨r, List.mem_filter.mpr ⟨mem_upserts_of_ne hr ?_, by simp [hother, hsrc]⟩, hkey⟩
      intro x hx heq
      obtain ⟨e, -, rfl⟩ := List.mem_map.mp hx
      have hsame : r.source = source := congrArg (·.2.2) heq
      exact hsrc (hother.symm.trans hsame)

/-! ## Senders -/

/-- The senders that a node tells. -/
def knownSources (sources : List (Option Text)) : List Text :=
  sources.filterMap fun s => s.filter (· ≠ [])

/-- Each sender is told. -/
def AllKnown (sources : List (Option Text)) : Prop := ∀ s ∈ sources, s ≠ none ∧ s ≠ some []

instance (sources : List (Option Text)) : Decidable (AllKnown sources) :=
  inferInstanceAs (Decidable (∀ s ∈ sources, _))

theorem screenSources_result (L : AddressCase) (chain : NetworkChain) (set : SanctionSet)
    (sources : List (Option Text)) :
    (screenSources L chain set sources).result =
      if ∃ s ∈ knownSources sources, (sourceHit L chain set s).isSome = true then .hit
      else .clear := by
  induction sources with
  | nil => simp [screenSources, knownSources]
  | cons s rest ih =>
    unfold screenSources
    cases hs : s.filter (· ≠ []) with
    | none =>
      have hknown : knownSources (s :: rest) = knownSources rest := List.filterMap_cons_none hs
      dsimp only
      rw [ih, hknown]
    | some t =>
      have hknown : knownSources (s :: rest) = t :: knownSources rest :=
        List.filterMap_cons_some hs
      dsimp only
      cases hhit : sourceHit L chain set t with
      | some hit => simp [hknown, hhit]
      | none => simp [hknown, hhit, ih]

end Klick.Screening
