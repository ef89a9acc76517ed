-- The CBOR reader of the signer against a grammar of the bytes that remain. Where
-- the bytes end inside the head of an item, the reader looks behind the end of
-- its buffer; everywhere else it stays inside, and takes exactly one item.
import Klick.WebAuthn

open Js

namespace Klick

/-! ## The grammar -/

/-- Which length of a head is not there, of one byte or of two. -/
inductive CutKind
  | byte | word
deriving DecidableEq, Repr

/-- The head of an item, and what comes after it. -/
inductive CborHead
  | read (major len : ℕ) (after : Bytes)
  | cut (kind : CutKind)
  | refused

def cborHead : Bytes → CborHead
  | [] => .refused
  | b :: after =>
    if b.toNat % 32 < 24 then .read (b.toNat / 32) (b.toNat % 32) after
    else if b.toNat % 32 = 24 then
      match after with
      | [] => .cut .byte
      | len :: after => .read (b.toNat / 32) len.toNat after
    else if b.toNat % 32 = 25 then
      match after with
      | high :: low :: after => .read (b.toNat / 32) (high.toNat * 256 + low.toNat) after
      | _ => .cut .word
    else .refused

section Grammar

-- the items of one level, with the bytes before and after them, and the bytes
-- that are cut in a head of that level or below
variable (Item : Bytes → Cbor → Bytes → Prop) (Cut : Bytes → Prop)

inductive CborItems : ℕ → Bytes → List Cbor → Bytes → Prop
  | nil {bs} : CborItems 0 bs [] bs
  | cons {n bs v mid vs rest} : Item bs v mid → CborItems n mid vs rest →
      CborItems (n + 1) bs (v :: vs) rest

/-- Entries with new keys, after those that are there. -/
inductive CborEntries : ℕ → List (CborKey × Cbor) → Bytes → List (CborKey × Cbor) → Bytes → Prop
  | nil {es bs} : CborEntries 0 es bs es bs
  | cons {n es bs k key mid v mid' fs rest} : Item bs k mid → Item mid v mid' → k.key? = some key →
      (∀ e ∈ es, e.1 ≠ key) → CborEntries n (es ++ [(key, v)]) mid' fs rest →
      CborEntries (n + 1) es bs fs rest

/-- What follows a head. -/
inductive CborBody : ℕ → ℕ → Bytes → Cbor → Bytes → Prop
  | unsigned {n bs} : CborBody 0 n bs (.num n) bs
  | negative {n bs} : CborBody 1 n bs (.num (-1 - n)) bs
  | bytes {n bs} : n ≤ bs.length → CborBody 2 n bs (.bytes (bs.take n)) (bs.drop n)
  | text {n bs} : n ≤ bs.length → CborBody 3 n bs (.text (utf8Decode (bs.take n))) (bs.drop n)
  | arr {n bs vs rest} : CborItems Item n bs vs rest → CborBody 4 n bs (.arr vs) rest
  | map {n bs es rest} : CborEntries Item n [] bs es rest → CborBody 5 n bs (.map es) rest

inductive ItemsCut : ℕ → Bytes → Prop
  | here {n bs} : Cut bs → ItemsCut (n + 1) bs
  | later {n bs v mid} : Item bs v mid → ItemsCut n mid → ItemsCut (n + 1) bs

inductive EntriesCut : ℕ → List (CborKey × Cbor) → Bytes → Prop
  | key {n es bs} : Cut bs → EntriesCut (n + 1) es bs
  | value {n es bs k mid} : Item bs k mid → Cut mid → EntriesCut (n + 1) es bs
  | later {n es bs k key mid v mid'} : Item bs k mid → Item mid v mid' → k.key? = some key →
      (∀ e ∈ es, e.1 ≠ key) → EntriesCut n (es ++ [(key, v)]) mid' → EntriesCut (n + 1) es bs

inductive BodyCut : ℕ → ℕ → Bytes → Prop
  | arr {n bs} : ItemsCut Item Cut n bs → BodyCut 4 n bs
  | map {n bs} : EntriesCut Item Cut n [] bs → BodyCut 5 n bs

end Grammar

/-- An item of at most so many levels, and what comes after it. -/
def CborItem : ℕ → Bytes → Cbor → Bytes → Prop
  | 0 => fun _ _ _ => False
  | levels + 1 => fun bs v rest => ∃ major len after, cborHead bs = .read major len after ∧
      CborBody (CborItem levels) major len after v rest

/-- The bytes end inside the head of an item, after whole items only. -/
def CborCut (kind : CutKind) : ℕ → Bytes → Prop
  | 0 => fun _ => False
  | levels + 1 => fun bs => cborHead bs = .cut kind ∨
      ∃ major len after, cborHead bs = .read major len after ∧
        BodyCut (CborItem levels) (CborCut kind levels) major len after

/-! ## Readings -/

namespace Reading

variable {α β γ : Type}

@[simp] theorem indexes_pure (a : α) : (pure a : Reading α).indexes = [] := rfl

theorem bind_of_ok {x : Reading α} {f : α → Reading β} {a : α} (h : x.result = .ok a) :
    x >>= f = ⟨x.indexes ++ (f a).indexes, (f a).result⟩ := by
  change x.bind f = _
  unfold Reading.bind
  rw [h]

theorem bind_of_error {x : Reading α} {f : α → Reading β} {e : WebAuthnThrown}
    (h : x.result = .error e) : x >>= f = ⟨x.indexes, .error e⟩ := by
  change x.bind f = _
  unfold Reading.bind
  rw [h]

theorem bind_assoc (x : Reading α) (f : α → Reading β) (g : β → Reading γ) :
    x >>= f >>= g = x >>= fun a => f a >>= g := by
  cases hx : x.result with
  | error e => rw [bind_of_error hx, bind_of_error hx, bind_of_error rfl]
  | ok a =>
    rw [bind_of_ok hx, bind_of_ok hx]
    cases hf : (f a).result with
    | error e => rw [bind_of_error rfl, bind_of_error hf]
    | ok b => rw [bind_of_ok rfl, bind_of_ok hf, List.append_assoc]

theorem pure_bind (a : α) (f : α → Reading β) : pure a >>= f = f a :=
  bind_of_ok (x := pure a) rfl

end Reading

/-- A position from which the reader finds no byte any more. -/
def Behind (buf : Bytes) (pos : Option ℕ) : Prop := ∀ n, pos = some n → buf.length < n

section Readings

variable {α β : Type} {buf : Bytes}

/-- All indexes lie within the buffer. -/
def Reading.Inside (buf : Bytes) (x : Reading α) : Prop :=
  ∀ i ∈ x.indexes, ∃ n < buf.length, i = some n

/-- The reading gives a value, and where it stopped. -/
structure Gives (buf : Bytes) (x : Reading (α × Option ℕ)) (v : α) (next : ℕ) : Prop where
  result : x.result = .ok (v, some next)
  bound : next ≤ buf.length
  inside : x.Inside buf

/-- The reading throws failures only, and does not come back into the buffer. -/
structure Lost (buf : Bytes) (x : Reading (α × Option ℕ)) : Prop where
  fails : ∀ e, x.result = .error e → ∃ code, e = .failure code
  behind : ∀ v pos, x.result = .ok (v, pos) → Behind buf pos

/-- What a cut does to the reading. -/
structure Breaks (buf : Bytes) (x : Reading (α × Option ℕ)) (kind : CutKind) : Prop where
  outside : ¬ x.Inside buf
  byte : kind = .byte → Lost buf x
  word : kind = .word → x.result = .error (.exn .rangeError)

/-- The reading takes an item, breaks at a cut, or fails within the buffer. -/
inductive Reads (buf : Bytes) (x : Reading (α × Option ℕ)) (Item : α → Bytes → Prop)
    (Cut : CutKind → Prop) : Prop
  | item {v next} : Gives buf x v next → Item v (buf.drop next) → Reads buf x Item Cut
  | cut {kind} : Breaks buf x kind → Cut kind → Reads buf x Item Cut
  | refused : x.result = .error (.failure .encoding) → x.Inside buf → Reads buf x Item Cut

theorem Gives.unique {x : Reading (α × Option ℕ)} {v w : α} {n m : ℕ} (h : Gives buf x v n)
    (h' : Gives buf x w m) : v = w ∧ n = m := by
  have heq := h.result.symm.trans h'.result
  obtain ⟨rfl, hnm⟩ := Prod.mk.inj (Except.ok.inj heq)
  exact ⟨rfl, Option.some.inj hnm⟩

theorem inside_fail (code : WebAuthnError) : (Reading.fail code : Reading α).Inside buf := nofun

theorem lost_fail (code : WebAuthnError) :
    Lost buf (Reading.fail code : Reading (α × Option ℕ)) :=
  ⟨fun _ he => ⟨code, (Except.error.inj he).symm⟩, nofun⟩

theorem lost_pure {v : α} {pos : Option ℕ} (h : Behind buf pos) :
    Lost buf (pure (v, pos) : Reading (α × Option ℕ)) := by
  refine ⟨nofun, ?_⟩
  rintro w p hp
  obtain ⟨-, rfl⟩ := Prod.mk.inj (Except.ok.inj hp)
  exact h

theorem gives_pure (v : α) {next : ℕ} (h : next ≤ buf.length) :
    Gives buf (pure (v, some next) : Reading (α × Option ℕ)) v next := ⟨rfl, h, nofun⟩

variable {x : Reading (α × Option ℕ)} {f : α × Option ℕ → Reading (β × Option ℕ)}

theorem Lost.bind (hx : Lost buf x) (hf : ∀ v pos, Behind buf pos → Lost buf (f (v, pos))) :
    Lost buf (x >>= f) := by
  cases hr : x.result with
  | error e =>
    rw [Reading.bind_of_error hr]
    refine ⟨?_, nofun⟩
    intro e' he
    obtain rfl := Except.error.inj he
    exact hx.fails e hr
  | ok a =>
    rw [Reading.bind_of_ok hr]
    have hlost := hf a.1 a.2 (hx.behind a.1 a.2 hr)
    exact ⟨hlost.fails, hlost.behind⟩

theorem outside_of_left {y : Reading β} (h : ¬ x.Inside buf)
    (hy : ∀ i ∈ x.indexes, i ∈ y.indexes) : ¬ y.Inside buf :=
  fun hin => h fun i hi => hin i (hy i hi)

theorem Gives.bind {v : α} {next : ℕ} (hx : Gives buf x v next) {w : β} {last : ℕ}
    (hf : Gives buf (f (v, some next)) w last) : Gives buf (x >>= f) w last := by
  rw [Reading.bind_of_ok hx.result]
  refine ⟨hf.result, hf.bound, ?_⟩
  intro i hi
  rcases List.mem_append.mp hi with hi | hi
  · exact hx.inside i hi
  · exact hf.inside i hi

/-- A break after a value. -/
theorem Gives.breaks {v : α} {next : ℕ} (hx : Gives buf x v next) {kind : CutKind}
    (hf : Breaks buf (f (v, some next)) kind) : Breaks buf (x >>= f) kind := by
  rw [Reading.bind_of_ok hx.result]
  refine ⟨outside_of_left hf.outside fun i hi => List.mem_append_right _ hi, ?_, hf.word⟩
  intro hk
  exact ⟨(hf.byte hk).fails, (hf.byte hk).behind⟩

/-- A break goes on to the end. -/
theorem Breaks.bind {kind : CutKind} (hx : Breaks buf x kind)
    (hf : ∀ v pos, Behind buf pos → Lost buf (f (v, pos))) : Breaks buf (x >>= f) kind := by
  refine ⟨?_, fun hk => (hx.byte hk).bind hf, ?_⟩
  · apply outside_of_left hx.outside
    intro i hi
    cases hr : x.result with
    | error e =>
      rw [Reading.bind_of_error hr]
      exact hi
    | ok a =>
      rw [Reading.bind_of_ok hr]
      exact List.mem_append_left _ hi
  · intro hk
    rw [Reading.bind_of_error (hx.word hk)]

theorem Gives.refused {v : α} {next : ℕ} (hx : Gives buf x v next)
    (hf : (f (v, some next)).result = .error (.failure .encoding))
    (hin : (f (v, some next)).Inside buf) :
    (x >>= f).result = .error (.failure .encoding) ∧ (x >>= f).Inside buf := by
  rw [Reading.bind_of_ok hx.result]
  refine ⟨hf, ?_⟩
  intro i hi
  rcases List.mem_append.mp hi with hi | hi
  · exact hx.inside i hi
  · exact hin i hi

/-- Two readings one after the other. -/
theorem Reads.bind {Item : α → Bytes → Prop} {Cut : CutKind → Prop} (hx : Reads buf x Item Cut)
    {Item' : β → Bytes → Prop} {Cut' : CutKind → Prop}
    (hf : ∀ v next, next ≤ buf.length → Item v (buf.drop next) →
      Reads buf (f (v, some next)) Item' Cut')
    (hlost : ∀ v pos, Behind buf pos → Lost buf (f (v, pos)))
    (hcut : ∀ kind, Cut kind → Cut' kind) : Reads buf (x >>= f) Item' Cut' := by
  cases hx with
  | @item v next hgives hitem =>
    cases hf v next hgives.bound hitem with
    | item hgives' hitem' => exact .item (hgives.bind hgives') hitem'
    | cut hbreaks hc => exact .cut (hgives.breaks hbreaks) hc
    | refused hr hin =>
      obtain ⟨hr', hin'⟩ := hgives.refused hr hin
      exact .refused hr' hin'
  | cut hbreaks hc => exact .cut (hbreaks.bind hlost) (hcut _ hc)
  | refused hr hin =>
    rw [Reading.bind_of_error hr]
    exact .refused rfl hin

end Readings

/-! ## The loops over items and entries -/

/-- A reader of items does what the grammar of their level says. -/
structure Level (buf : Bytes) (decode : Option ℕ → Reading (Cbor × Option ℕ))
    (Item : Bytes → Cbor → Bytes → Prop) (Cut : CutKind → Bytes → Prop) : Prop where
  reads : ∀ pos ≤ buf.length, Reads buf (decode (some pos)) (Item (buf.drop pos))
    fun kind => Cut kind (buf.drop pos)
  gives : ∀ pos ≤ buf.length, ∀ v rest, Item (buf.drop pos) v rest →
    ∃ next, Gives buf (decode (some pos)) v next ∧ rest = buf.drop next
  breaks : ∀ pos ≤ buf.length, ∀ kind, Cut kind (buf.drop pos) → Breaks buf (decode (some pos)) kind
  lost : ∀ pos, Behind buf pos → Lost buf (decode pos)

section Loops

variable {buf : Bytes} {decode : Option ℕ → Reading (Cbor × Option ℕ)}
  {Item : Bytes → Cbor → Bytes → Prop} {Cut : CutKind → Bytes → Prop}

theorem Level.items_lost (h : Level buf decode Item Cut) (n : ℕ) (pos : Option ℕ)
    (hpos : Behind buf pos) : Lost buf (cborItems decode n pos) := by
  induction n generalizing pos with
  | zero => exact lost_pure hpos
  | succ n ih =>
    apply (h.lost pos hpos).bind
    intro v next hnext
    apply (ih next hnext).bind
    intro vs last hlast
    exact lost_pure hlast

theorem Level.items_reads (h : Level buf decode Item Cut) (n pos : ℕ) (hpos : pos ≤ buf.length) :
    Reads buf (cborItems decode n (some pos)) (CborItems Item n (buf.drop pos))
      fun kind => ItemsCut Item (Cut kind) n (buf.drop pos) := by
  induction n generalizing pos with
  | zero => exact .item (gives_pure _ hpos) .nil
  | succ n ih =>
    apply (h.reads pos hpos).bind
    · intro v next hnext hitem
      apply (ih next hnext).bind
      · intro vs last hlast hitems
        exact .item (gives_pure _ hlast) (.cons hitem hitems)
      · intro vs last hlast
        exact lost_pure hlast
      · intro kind hcut
        exact .later hitem hcut
    · intro v next hnext
      apply (h.items_lost n next hnext).bind
      intro vs last hlast
      exact lost_pure hlast
    · intro kind hcut
      exact .here hcut

theorem Level.items_gives (h : Level buf decode Item Cut) {n pos : ℕ} (hpos : pos ≤ buf.length)
    {vs : List Cbor} {rest : Bytes} (hitems : CborItems Item n (buf.drop pos) vs rest) :
    ∃ next, Gives buf (cborItems decode n (some pos)) vs next ∧ rest = buf.drop next := by
  induction n generalizing pos vs with
  | zero =>
    cases hitems
    exact ⟨pos, gives_pure _ hpos, rfl⟩
  | succ n ih =>
    cases hitems with
    | cons hitem hrest =>
      obtain ⟨next, hgives, rfl⟩ := h.gives pos hpos _ _ hitem
      obtain ⟨last, hgives', rfl⟩ := ih hgives.bound hrest
      exact ⟨last, hgives.bind (hgives'.bind (gives_pure _ hgives'.bound)), rfl⟩

theorem Level.items_breaks (h : Level buf decode Item Cut) {kind : CutKind} {n pos : ℕ}
    (hpos : pos ≤ buf.length) (hcut : ItemsCut Item (Cut kind) n (buf.drop pos)) :
    Breaks buf (cborItems decode n (some pos)) kind := by
  induction n generalizing pos with
  | zero => cases hcut
  | succ n ih =>
    cases hcut with
    | here hc =>
      apply (h.breaks pos hpos kind hc).bind
      intro v next hnext
      apply (h.items_lost n next hnext).bind
      intro vs last hlast
      exact lost_pure hlast
    | later hitem hc =>
      obtain ⟨next, hgives, rfl⟩ := h.gives pos hpos _ _ hitem
      apply hgives.breaks
      apply (ih hgives.bound hc).bind
      intro vs last hlast
      exact lost_pure hlast

theorem any_eq_false {es : List (CborKey × Cbor)} {key : CborKey} :
    es.any (fun e => decide (e.1 = key)) = false ↔ ∀ e ∈ es, e.1 ≠ key := by
  simp

/-- The end of an entry, behind the buffer. -/
theorem lost_entry {es : List (CborKey × Cbor)} {k v : Cbor}
    {rest : List (CborKey × Cbor) → Reading (List (CborKey × Cbor) × Option ℕ)}
    (h : ∀ es, Lost buf (rest es)) :
    Lost buf (match k.key? with
      | none => Reading.fail .encoding
      | some k => if es.any (fun e => e.1 = k) then Reading.fail .encoding
        else rest (es ++ [(k, v)])) := by
  split
  · exact lost_fail _
  · split
    · exact lost_fail _
    · exact h _

theorem Level.entries_lost (h : Level buf decode Item Cut) (n : ℕ)
    (es : List (CborKey × Cbor)) (pos : Option ℕ) (hpos : Behind buf pos) :
    Lost buf (cborEntries decode n es pos) := by
  induction n generalizing es pos with
  | zero => exact lost_pure hpos
  | succ n ih =>
    apply (h.lost pos hpos).bind
    intro k afterKey hkey
    apply (h.lost afterKey hkey).bind
    intro v afterVal hval
    exact lost_entry fun es => ih es afterVal hval

/-- A key that is no key, or that is there already, fails within the buffer. -/
theorem Level.entries_reads (h : Level buf decode Item Cut) (n : ℕ) (es : List (CborKey × Cbor))
    (pos : ℕ) (hpos : pos ≤ buf.length) :
    Reads buf (cborEntries decode n es (some pos)) (CborEntries Item n es (buf.drop pos))
      fun kind => EntriesCut Item (Cut kind) n es (buf.drop pos) := by
  induction n generalizing es pos with
  | zero => exact .item (gives_pure _ hpos) .nil
  | succ n ih =>
    apply (h.reads pos hpos).bind
    · intro k afterKey hafter hk
      apply (h.reads afterKey hafter).bind
      · intro v afterVal hafter' hv
        simp only
        split
        · exact .refused rfl (inside_fail _)
        · rename_i key hkey
          split
          · exact .refused rfl (inside_fail _)
          · rename_i hnew
            have hfresh := any_eq_false.1 (Bool.eq_false_iff.mpr hnew)
            cases ih (es ++ [(key, v)]) afterVal hafter' with
            | item hgives hitem => exact .item hgives (.cons hk hv hkey hfresh hitem)
            | cut hbreaks hc => exact .cut hbreaks (.later hk hv hkey hfresh hc)
            | refused hr hin => exact .refused hr hin
      · intro v afterVal hval
        exact lost_entry fun es => h.entries_lost n es afterVal hval
      · intro kind hcut
        exact .value hk hcut
    · intro k afterKey hkey
      apply (h.lost afterKey hkey).bind
      intro v afterVal hval
      exact lost_entry fun es => h.entries_lost n es afterVal hval
    · intro kind hcut
      exact .key hcut

theorem Level.entries_gives (h : Level buf decode Item Cut) {n : ℕ} {es fs : List (CborKey × Cbor)}
    {pos : ℕ} {rest : Bytes} (hpos : pos ≤ buf.length)
    (hentries : CborEntries Item n es (buf.drop pos) fs rest) :
    ∃ next, Gives buf (cborEntries decode n es (some pos)) fs next ∧ rest = buf.drop next := by
  induction n generalizing es pos with
  | zero =>
    cases hentries
    exact ⟨pos, gives_pure _ hpos, rfl⟩
  | succ n ih =>
    cases hentries with
    | cons hk hv hkey hfresh hrest =>
      obtain ⟨afterKey, hgives, rfl⟩ := h.gives pos hpos _ _ hk
      obtain ⟨afterVal, hgives', rfl⟩ := h.gives afterKey hgives.bound _ _ hv
      obtain ⟨last, hlast, rfl⟩ := ih hgives'.bound hrest
      refine ⟨last, hgives.bind (hgives'.bind ?_), rfl⟩
      simp only [hkey, any_eq_false.2 hfresh]
      exact hlast

theorem Level.entries_breaks (h : Level buf decode Item Cut) {kind : CutKind} {n pos : ℕ}
    {es : List (CborKey × Cbor)} (hpos : pos ≤ buf.length)
    (hcut : EntriesCut Item (Cut kind) n es (buf.drop pos)) :
    Breaks buf (cborEntries decode n es (some pos)) kind := by
  induction n generalizing es pos with
  | zero => cases hcut
  | succ n ih =>
    cases hcut with
    | key hc =>
      apply (h.breaks pos hpos kind hc).bind
      intro k afterKey hkey
      apply (h.lost afterKey hkey).bind
      intro v afterVal hval
      exact lost_entry fun es => h.entries_lost n es afterVal hval
    | value hk hc =>
      obtain ⟨afterKey, hgives, rfl⟩ := h.gives pos hpos _ _ hk
      apply hgives.breaks
      apply (h.breaks afterKey hgives.bound kind hc).bind
      intro v afterVal hval
      exact lost_entry fun es => h.entries_lost n es afterVal hval
    | later hk hv hkey hfresh hc =>
      obtain ⟨afterKey, hgives, rfl⟩ := h.gives pos hpos _ _ hk
      obtain ⟨afterVal, hgives', rfl⟩ := h.gives afterKey hgives.bound _ _ hv
      apply hgives.breaks
      apply hgives'.breaks
      simp only [hkey, any_eq_false.2 hfresh]
      exact ih hgives'.bound hc

end Loops

/-! ## The head of an item -/

/-- The major type, the length, and where the content begins. -/
def cborStart (buf : Bytes) (offset : Option ℕ) : Reading (ℕ × Option ℕ × Option ℕ) := do
  let head := (← byteAt buf offset).getD 0
  let (len, pos) ← cborLength buf (head % 32) (offset.map (· + 1))
  return (head / 32, len, pos)

/-- The content of an item. -/
def cborContent (buf : Bytes) (decode : Option ℕ → Reading (Cbor × Option ℕ)) (major : ℕ)
    (len pos : Option ℕ) : Reading (Cbor × Option ℕ) :=
  match major with
  | 0 => return (len.elim .undefined fun n => .num n, pos)
  | 1 => return (len.elim .nan fun n => .num (-1 - n), pos)
  | 2 => do return (.bytes (← cborSlice buf pos len), plusMaybe pos len)
  | 3 => do return (.text (utf8Decode (← cborSlice buf pos len)), plusMaybe pos len)
  | 4 => do
    let (items, pos) ← cborItems decode (len.getD 0) pos
    return (.arr items, pos)
  | 5 => do
    let (entries, pos) ← cborEntries decode (len.getD 0) [] pos
    return (.map entries, pos)
  | _ => Reading.fail .encoding

theorem cborDecode_succ (buf : Bytes) (levels : ℕ) (offset : Option ℕ) :
    cborDecode buf (levels + 1) offset =
      if offset.any (buf.length ≤ ·) then Reading.fail .encoding
      else cborStart buf offset >>= fun s => cborContent buf (cborDecode buf levels) s.1 s.2.1 s.2.2 := by
  rw [cborDecode]
  split
  · rfl
  · unfold cborStart
    simp only [Reading.bind_assoc, Reading.pure_bind]
    rfl

theorem byteAt_of_some {buf : Bytes} {n : ℕ} {b : UInt8} (h : buf[n]? = some b) :
    byteAt buf (some n) = ⟨[some n], .ok (some b.toNat)⟩ := by
  simp [byteAt, h]

theorem byteAt_of_le {buf : Bytes} {n : ℕ} (h : buf.length ≤ n) :
    byteAt buf (some n) = ⟨[some n], .ok none⟩ := by
  simp [byteAt, List.getElem?_eq_none h]

theorem cborStart_eq {buf : Bytes} {pos : ℕ} {b : UInt8} (h : buf[pos]? = some b) :
    cborStart buf (some pos) =
      ⟨some pos :: (cborLength buf (b.toNat % 32) (some (pos + 1))).indexes,
        (cborLength buf (b.toNat % 32) (some (pos + 1))).result.map
          fun l => (b.toNat / 32, l.1, l.2)⟩ := by
  unfold cborStart
  rw [byteAt_of_some h, Reading.bind_of_ok rfl]
  simp only [Option.getD_some, Option.map_some, List.singleton_append]
  generalize cborLength buf (b.toNat % 32) (some (pos + 1)) = l
  cases hl : l.result with
  | error e =>
    rw [Reading.bind_of_error hl]
    rfl
  | ok a =>
    rw [Reading.bind_of_ok hl]
    simp only [Except.map]
    congr 2
    exact List.append_nil _

theorem readUInt16BE_eq {buf : Bytes} {n : ℕ} {high low : UInt8} (h : buf[n]? = some high)
    (hl : buf[n + 1]? = some low) : readUInt16BE buf (some n) =
      ⟨[some n, some (n + 1)], .ok (high.toNat * 256 + low.toNat)⟩ := by
  unfold readUInt16BE
  rw [byteAt_of_some h, Reading.bind_of_ok rfl, Option.map_some, byteAt_of_some hl,
    Reading.bind_of_ok rfl]
  rfl

/-- Two bytes that are not both there. -/
theorem readUInt16BE_behind {buf : Bytes} {n : ℕ} (h : buf.length ≤ n + 1) :
    (readUInt16BE buf (some n)).result = .error (.exn .rangeError) ∧
      some (n + 1) ∈ (readUInt16BE buf (some n)).indexes := by
  unfold readUInt16BE
  rw [Option.map_some, byteAt_of_le h]
  cases hb : buf[n]? with
  | none =>
    rw [byteAt_of_le (List.getElem?_eq_none_iff.mp hb)]
    refine ⟨rfl, ?_⟩
    change some (n + 1) ∈ [some n, some (n + 1)]
    exact List.mem_cons_of_mem _ List.mem_cons_self
  | some b =>
    rw [byteAt_of_some hb]
    refine ⟨rfl, ?_⟩
    change some (n + 1) ∈ [some n, some (n + 1)]
    exact List.mem_cons_of_mem _ List.mem_cons_self

/-- What the first bytes of an item tell the reader. -/
theorem cborStart_cases {buf : Bytes} {pos : ℕ} (hpos : pos < buf.length) :
    (∃ major len next, cborHead (buf.drop pos) = .read major len (buf.drop next) ∧
      next ≤ buf.length ∧ (cborStart buf (some pos)).result = .ok (major, some len, some next) ∧
      (cborStart buf (some pos)).Inside buf) ∨
    (cborHead (buf.drop pos) = .cut .byte ∧ ¬ (cborStart buf (some pos)).Inside buf ∧
      ∃ major next, buf.length < next ∧
        (cborStart buf (some pos)).result = .ok (major, none, some next)) ∨
    (cborHead (buf.drop pos) = .cut .word ∧ ¬ (cborStart buf (some pos)).Inside buf ∧
      (cborStart buf (some pos)).result = .error (.exn .rangeError)) ∨
    (cborHead (buf.drop pos) = .refused ∧ (cborStart buf (some pos)).Inside buf ∧
      (cborStart buf (some pos)).result = .error (.failure .encoding)) := by
  have hb : buf[pos]? = some buf[pos] := List.getElem?_eq_getElem hpos
  have hdrop : buf.drop pos = buf[pos] :: buf.drop (pos + 1) := List.drop_eq_getElem_cons hpos
  generalize buf[pos] = b at hb hdrop
  have hin : ∃ n < buf.length, (some pos : Option ℕ) = some n := ⟨pos, hpos, rfl⟩
  rw [cborStart_eq hb, hdrop]
  unfold cborHead cborLength
  by_cases h24 : b.toNat % 32 < 24
  · -- the length stands in the head
    left
    simp only [if_pos h24]
    refine ⟨_, _, pos + 1, rfl, hpos, rfl, ?_⟩
    intro i hi
    rw [List.mem_singleton.mp hi]
    exact hin
  · simp only [if_neg h24]
    by_cases he : b.toNat % 32 = 24
    · simp only [if_pos he]
      cases hlen : buf[pos + 1]? with
      | none =>
        have hend : buf.length = pos + 1 := by
          have := List.getElem?_eq_none_iff.mp hlen
          omega
        rw [List.drop_of_length_le hend.le, byteAt_of_le hend.le, Reading.bind_of_ok rfl]
        right; left
        refine ⟨rfl, ?_, _, pos + 2, by omega, rfl⟩
        intro hin'
        obtain ⟨n, hn, hpn⟩ := hin' (some (pos + 1)) (by simp)
        obtain rfl := Option.some.inj hpn
        omega
      | some len =>
        have hlt := (List.getElem?_eq_some_iff.mp hlen).1
        rw [List.drop_eq_getElem_cons hlt, (List.getElem?_eq_some_iff.mp hlen).2,
          byteAt_of_some hlen, Reading.bind_of_ok rfl]
        left
        refine ⟨_, _, pos + 2, rfl, hlt, rfl, ?_⟩
        intro i hi
        rcases List.mem_cons.mp hi with rfl | hi
        · exact hin
        · have hi : i = some (pos + 1) := by simpa using hi
          rw [hi]
          exact ⟨pos + 1, hlt, rfl⟩
    · simp only [if_neg he]
      by_cases hw : b.toNat % 32 = 25
      · simp only [if_pos hw]
        by_cases hend : buf.length ≤ pos + 2
        · obtain ⟨hres, hmem⟩ := readUInt16BE_behind (n := pos + 1) hend
          rw [Reading.bind_of_error hres]
          right; right; left
          refine ⟨?_, ?_, rfl⟩
          · split
            · rename_i high low after hafter
              have hlen := congrArg List.length hafter
              simp only [List.length_drop, List.length_cons] at hlen
              omega
            · rfl
          · intro hin'
            obtain ⟨n, hn, hpn⟩ := hin' _ (List.mem_cons_of_mem _ hmem)
            obtain rfl := Option.some.inj hpn
            omega
        · have h1 : pos + 1 < buf.length := by omega
          have h2 : pos + 1 + 1 < buf.length := by omega
          rw [List.drop_eq_getElem_cons h1, List.drop_eq_getElem_cons h2,
            readUInt16BE_eq (List.getElem?_eq_getElem h1) (List.getElem?_eq_getElem h2),
            Reading.bind_of_ok rfl]
          left
          refine ⟨_, _, pos + 3, rfl, h2, rfl, ?_⟩
          intro i hi
          rcases List.mem_cons.mp hi with rfl | hi
          · exact hin
          · have hi : i = some (pos + 1) ∨ i = some (pos + 2) := by simpa using hi
            rcases hi with rfl | rfl
            · exact ⟨_, h1, rfl⟩
            · exact ⟨_, h2, rfl⟩
      · simp only [if_neg hw]
        right; right; right
        refine ⟨trivial, ?_, rfl⟩
        intro i hi
        rw [List.mem_singleton.mp hi]
        exact hin

/-! ## The content of an item -/

section Content

variable {buf : Bytes} {decode : Option ℕ → Reading (Cbor × Option ℕ)}
  {Item : Bytes → Cbor → Bytes → Prop} {Cut : CutKind → Bytes → Prop}

theorem cborSlice_within {pos len : ℕ} (h : pos + len ≤ buf.length) :
    cborSlice buf (some pos) (some len) =
      ⟨(List.range' pos len).map some, .ok ((buf.drop pos).take len)⟩ := by
  unfold cborSlice
  exact if_neg (by omega)

theorem cborSlice_beyond {pos len : ℕ} (h : buf.length < pos + len) :
    cborSlice buf (some pos) (some len) = Reading.fail .encoding := if_pos h

theorem inside_slice {pos len : ℕ} (h : pos + len ≤ buf.length) {α : Type}
    (r : Except WebAuthnThrown α) :
    (⟨(List.range' pos len).map some, r⟩ : Reading α).Inside buf := by
  intro i hi
  obtain ⟨n, hn, rfl⟩ := List.mem_map.mp hi
  have hlt := List.mem_range'_1.mp hn
  exact ⟨n, by omega, rfl⟩

theorem slice_gives {pos len : ℕ} (make : Bytes → Cbor) (hlen : len ≤ (buf.drop pos).length)
    (hpos : pos ≤ buf.length) :
    Gives buf (do return (make (← cborSlice buf (some pos) (some len)),
      plusMaybe (some pos) (some len))) (make ((buf.drop pos).take len)) (pos + len) := by
  rw [List.length_drop] at hlen
  have hle : pos + len ≤ buf.length := by omega
  rw [cborSlice_within hle]
  refine ⟨rfl, hle, ?_⟩
  intro i hi
  change i ∈ (List.range' pos len).map some ++ [] at hi
  rw [List.append_nil] at hi
  exact inside_slice hle (.ok ((buf.drop pos).take len)) i hi

/-- A content of bytes is there, or the reader fails. -/
theorem slice_reads {pos len : ℕ} (make : Bytes → Cbor) (hpos : pos ≤ buf.length)
    {Item' : Cbor → Bytes → Prop} {Cut' : CutKind → Prop}
    (h : len ≤ (buf.drop pos).length →
      Item' (make ((buf.drop pos).take len)) ((buf.drop pos).drop len)) :
    Reads buf (do return (make (← cborSlice buf (some pos) (some len)),
      plusMaybe (some pos) (some len))) Item' Cut' := by
  by_cases hlen : len ≤ (buf.drop pos).length
  · have hitem := h hlen
    rw [List.drop_drop] at hitem
    exact .item (slice_gives make hlen hpos) hitem
  · rw [List.length_drop] at hlen
    rw [cborSlice_beyond (by omega)]
    exact .refused rfl nofun

theorem Level.content_reads (h : Level buf decode Item Cut) (major len : ℕ) {pos : ℕ}
    (hpos : pos ≤ buf.length) :
    Reads buf (cborContent buf decode major (some len) (some pos))
      (CborBody Item major len (buf.drop pos))
      fun kind => BodyCut Item (Cut kind) major len (buf.drop pos) := by
  unfold cborContent
  split
  · exact .item (gives_pure _ hpos) .unsigned
  · exact .item (gives_pure _ hpos) .negative
  · exact slice_reads .bytes hpos .bytes
  · exact slice_reads (fun bs => .text (utf8Decode bs)) hpos .text
  · apply (h.items_reads len pos hpos).bind
    · intro vs next hnext hitems
      exact .item (gives_pure _ hnext) (.arr hitems)
    · intro vs next hnext
      exact lost_pure hnext
    · intro kind hcut
      exact .arr hcut
  · apply (h.entries_reads len [] pos hpos).bind
    · intro es next hnext hentries
      exact .item (gives_pure _ hnext) (.map hentries)
    · intro es next hnext
      exact lost_pure hnext
    · intro kind hcut
      exact .map hcut
  · exact .refused rfl nofun

theorem Level.content_gives (h : Level buf decode Item Cut) {major len pos : ℕ}
    (hpos : pos ≤ buf.length) {v : Cbor} {rest : Bytes}
    (hbody : CborBody Item major len (buf.drop pos) v rest) :
    ∃ next, Gives buf (cborContent buf decode major (some len) (some pos)) v next ∧
      rest = buf.drop next := by
  cases hbody with
  | unsigned | negative => exact ⟨pos, gives_pure _ hpos, rfl⟩
  | bytes hlen =>
    exact ⟨pos + len, slice_gives .bytes hlen hpos, List.drop_drop⟩
  | text hlen =>
    exact ⟨pos + len, slice_gives (fun bs => .text (utf8Decode bs)) hlen hpos, List.drop_drop⟩
  | arr hitems =>
    obtain ⟨next, hgives, rfl⟩ := h.items_gives hpos hitems
    exact ⟨next, hgives.bind (gives_pure _ hgives.bound), rfl⟩
  | map hentries =>
    obtain ⟨next, hgives, rfl⟩ := h.entries_gives hpos hentries
    exact ⟨next, hgives.bind (gives_pure _ hgives.bound), rfl⟩

theorem Level.content_breaks (h : Level buf decode Item Cut) {kind : CutKind} {major len pos : ℕ}
    (hpos : pos ≤ buf.length) (hcut : BodyCut Item (Cut kind) major len (buf.drop pos)) :
    Breaks buf (cborContent buf decode major (some len) (some pos)) kind := by
  cases hcut with
  | arr hc =>
    apply (h.items_breaks hpos hc).bind
    intro vs next hnext
    exact lost_pure hnext
  | map hc =>
    apply (h.entries_breaks hpos hc).bind
    intro es next hnext
    exact lost_pure hnext

/-- Without a length there is no content, and the reader does not come back. -/
theorem content_lost (major : ℕ) {pos : Option ℕ} (hpos : Behind buf pos) :
    Lost buf (cborContent buf decode major none pos) := by
  have hnone : Behind buf none := nofun
  unfold cborContent
  split
  · exact lost_pure hpos
  · exact lost_pure hpos
  · cases pos <;> exact lost_pure hnone
  · cases pos <;> exact lost_pure hnone
  · exact lost_pure hpos
  · exact lost_pure hpos
  · exact lost_fail _

end Content

/-! ## The levels -/

theorem Level.zero (buf : Bytes) :
    Level buf (cborDecode buf 0) (CborItem 0) fun kind => CborCut kind 0 where
  reads _ _ := .refused rfl nofun
  gives _ _ _ _ h := nomatch h
  breaks _ _ _ h := nomatch h
  lost _ _ := lost_fail _

theorem inside_left {α β : Type} {buf : Bytes} {x : Reading α} {f : α → Reading β}
    (h : (x >>= f).Inside buf) : x.Inside buf := by
  intro i hi
  apply h
  cases hr : x.result with
  | error e =>
    rw [Reading.bind_of_error hr]
    exact hi
  | ok a =>
    rw [Reading.bind_of_ok hr]
    exact List.mem_append_left _ hi

/-- Behind the end of the buffer there are only zeros. -/
theorem cborDecode_lost (buf : Bytes) (levels : ℕ) {pos : Option ℕ} (hpos : Behind buf pos) :
    Lost buf (cborDecode buf levels pos) := by
  cases levels with
  | zero => exact lost_fail _
  | succ levels =>
    rw [cborDecode_succ]
    cases pos with
    | none =>
      have hstart : (cborStart buf none).result = .ok (0, some 0, none) := by
        unfold cborStart
        rw [show byteAt buf none = ⟨[none], .ok none⟩ from rfl, Reading.bind_of_ok rfl]
        rfl
      rw [if_neg (by simp), Reading.bind_of_ok hstart]
      have hlost : Lost buf (pure (Cbor.num 0, none)) := lost_pure nofun
      exact ⟨hlost.fails, hlost.behind⟩
    | some n =>
      rw [if_pos]
      · exact lost_fail _
      · have hn := hpos n rfl
        simp only [Option.any_some, decide_eq_true_eq]
        omega

/-- One more level. -/
theorem Level.succ {buf : Bytes} {levels : ℕ}
    (h : Level buf (cborDecode buf levels) (CborItem levels) fun kind => CborCut kind levels) :
    Level buf (cborDecode buf (levels + 1)) (CborItem (levels + 1))
      fun kind => CborCut kind (levels + 1) := by
  have hdecode : ∀ pos < buf.length, cborDecode buf (levels + 1) (some pos) =
      cborStart buf (some pos) >>= fun s =>
        cborContent buf (cborDecode buf levels) s.1 s.2.1 s.2.2 := by
    intro pos hpos
    rw [cborDecode_succ, if_neg]
    simp only [Option.any_some, decide_eq_true_eq]
    omega
  have hend : ∀ pos, buf.length ≤ pos →
      cborDecode buf (levels + 1) (some pos) = Reading.fail .encoding ∧ buf.drop pos = [] := by
    intro pos hpos
    refine ⟨?_, List.drop_of_length_le hpos⟩
    rw [cborDecode_succ, if_pos]
    simpa using hpos
  -- the reading that follows a head that is there
  have hread : ∀ {pos major len next}, (cborStart buf (some pos)).result =
        .ok (major, some len, some next) → (cborStart buf (some pos)).Inside buf →
      next ≤ buf.length → pos < buf.length →
      (∀ {v last}, Gives buf (cborContent buf (cborDecode buf levels) major (some len) (some next))
          v last → Gives buf (cborDecode buf (levels + 1) (some pos)) v last) ∧
      (∀ {kind}, Breaks buf (cborContent buf (cborDecode buf levels) major (some len) (some next))
          kind → Breaks buf (cborDecode buf (levels + 1) (some pos)) kind) ∧
      ((cborContent buf (cborDecode buf levels) major (some len) (some next)).result =
          .error (.failure .encoding) →
        (cborContent buf (cborDecode buf levels) major (some len) (some next)).Inside buf →
        (cborDecode buf (levels + 1) (some pos)).result = .error (.failure .encoding) ∧
          (cborDecode buf (levels + 1) (some pos)).Inside buf) := by
    intro pos major len next hres hin _ hpos
    have hall : ∀ {i}, i ∈ (cborStart buf (some pos)).indexes ++
        (cborContent buf (cborDecode buf levels) major (some len) (some next)).indexes →
        (cborContent buf (cborDecode buf levels) major (some len) (some next)).Inside buf →
        ∃ n < buf.length, i = some n := by
      intro i hi hin'
      rcases List.mem_append.mp hi with hi | hi
      · exact hin i hi
      · exact hin' i hi
    rw [hdecode pos hpos, Reading.bind_of_ok hres]
    refine ⟨?_, ?_, ?_⟩
    · intro v last hg
      exact ⟨hg.result, hg.bound, fun i hi => hall hi hg.inside⟩
    · intro kind hb
      refine ⟨fun hin' => hb.outside fun i hi => hin' i (List.mem_append_right _ hi), ?_, hb.word⟩
      intro hk
      exact ⟨(hb.byte hk).fails, (hb.byte hk).behind⟩
    · intro hr hin'
      exact ⟨hr, fun i hi => hall hi hin'⟩
  -- the reading that breaks in its head
  have hcut : ∀ {pos kind}, pos < buf.length → cborHead (buf.drop pos) = .cut kind →
      Breaks buf (cborDecode buf (levels + 1) (some pos)) kind := by
    intro pos kind hpos hhead
    rw [hdecode pos hpos]
    rcases cborStart_cases hpos with ⟨_, _, _, hr, -⟩ | ⟨hr, hout, major, next, hnext, hres⟩ |
      ⟨hr, hout, hres⟩ | ⟨hr, -⟩
    · rw [hr] at hhead
      cases hhead
    · rw [hr] at hhead
      cases hhead
      refine ⟨fun hin => hout (inside_left hin), ?_, nofun⟩
      intro _
      rw [Reading.bind_of_ok hres]
      have hbehind : Behind buf (some next) := by
        rintro n ⟨⟩
        exact hnext
      have hlost : Lost buf (cborContent buf (cborDecode buf levels) major none (some next)) :=
        content_lost major hbehind
      exact ⟨hlost.fails, hlost.behind⟩
    · rw [hr] at hhead
      cases hhead
      refine ⟨fun hin => hout (inside_left hin), nofun, ?_⟩
      intro _
      rw [Reading.bind_of_error hres]
    · rw [hr] at hhead
      cases hhead
  refine ⟨?_, ?_, ?_, fun pos => cborDecode_lost buf (levels + 1)⟩
  · intro pos hpos
    by_cases hlt : pos < buf.length
    · rcases cborStart_cases hlt with ⟨major, len, next, hr, hnext, hres, hin⟩ |
        ⟨hr, -⟩ | ⟨hr, -⟩ | ⟨-, hin, hres⟩
      · obtain ⟨hgives, hbreaks, hrefused⟩ := hread hres hin hnext hlt
        cases h.content_reads major len hnext with
        | item hg hbody => exact .item (hgives hg) ⟨major, len, _, hr, hbody⟩
        | cut hb hc => exact .cut (hbreaks hb) (.inr ⟨major, len, _, hr, hc⟩)
        | refused hres' hin' =>
          obtain ⟨h1, h2⟩ := hrefused hres' hin'
          exact .refused h1 h2
      · exact .cut (hcut hlt hr) (.inl hr)
      · exact .cut (hcut hlt hr) (.inl hr)
      · rw [hdecode pos hlt, Reading.bind_of_error hres]
        exact .refused rfl hin
    · rw [(hend pos (by omega)).1]
      exact .refused rfl nofun
  · rintro pos hpos v rest ⟨major, len, after, hhead, hbody⟩
    by_cases hlt : pos < buf.length
    · rcases cborStart_cases hlt with ⟨major', len', next, hr, hnext, hres, hin⟩ |
        ⟨hr, -⟩ | ⟨hr, -⟩ | ⟨hr, -⟩
      · rw [hr] at hhead
        obtain ⟨rfl, rfl, rfl⟩ := CborHead.read.inj hhead
        obtain ⟨last, hg, rfl⟩ := h.content_gives hnext hbody
        exact ⟨last, (hread hres hin hnext hlt).1 hg, rfl⟩
      all_goals
        rw [hr] at hhead
        cases hhead
    · rw [(hend pos (by omega)).2] at hhead
      cases hhead
  · intro pos hpos kind hc
    by_cases hlt : pos < buf.length
    · rcases hc with hhead | ⟨major, len, after, hhead, hbody⟩
      · exact hcut hlt hhead
      · rcases cborStart_cases hlt with ⟨major', len', next, hr, hnext, hres, hin⟩ |
          ⟨hr, -⟩ | ⟨hr, -⟩ | ⟨hr, -⟩
        · rw [hr] at hhead
          obtain ⟨rfl, rfl, rfl⟩ := CborHead.read.inj hhead
          exact (hread hres hin hnext hlt).2.1 (h.content_breaks hnext hbody)
        all_goals
          rw [hr] at hhead
          cases hhead
    · rw [(hend pos (by omega)).2] at hc
      rcases hc with hhead | ⟨_, _, _, hhead, -⟩ <;> cases hhead

/-- The reader and the grammar, at every level. -/
theorem cborDecode_level (buf : Bytes) (levels : ℕ) :
    Level buf (cborDecode buf levels) (CborItem levels) fun kind => CborCut kind levels := by
  induction levels with
  | zero => exact Level.zero buf
  | succ levels ih => exact ih.succ

/-! ## What the reader does with any bytes -/

section Decode

variable {buf : Bytes} {levels pos : ℕ} (hpos : pos ≤ buf.length)

include hpos

theorem cborDecode_inside_iff : (cborDecode buf levels (some pos)).Inside buf ↔
    ∀ kind, ¬ CborCut kind levels (buf.drop pos) := by
  have hlevel := cborDecode_level buf levels
  constructor
  · intro hin kind hcut
    exact (hlevel.breaks pos hpos kind hcut).outside hin
  · intro hnone
    cases hlevel.reads pos hpos with
    | item hg _ => exact hg.inside
    | cut _ hc => exact absurd hc (hnone _)
    | refused _ hin => exact hin

/-- The only error of the language is that of a cut before two bytes. -/
theorem cborDecode_throws_iff (e : WebAuthnThrown) :
    ((cborDecode buf levels (some pos)).result = .error e ∧ ∀ code, e ≠ .failure code) ↔
      e = .exn .rangeError ∧ CborCut .word levels (buf.drop pos) := by
  have hlevel := cborDecode_level buf levels
  constructor
  · rintro ⟨hres, hne⟩
    cases hlevel.reads pos hpos with
    | item hg _ =>
      rw [hg.result] at hres
      cases hres
    | @cut kind hb hc =>
      cases kind with
      | byte =>
        obtain ⟨code, rfl⟩ := (hb.byte rfl).fails e hres
        exact absurd rfl (hne code)
      | word =>
        rw [hb.word rfl] at hres
        exact ⟨(Except.error.inj hres).symm, hc⟩
    | refused hr _ =>
      rw [hr] at hres
      exact absurd (Except.error.inj hres).symm (hne _)
  · rintro ⟨rfl, hc⟩
    exact ⟨(hlevel.breaks pos hpos _ hc).word rfl, nofun⟩

/-- Within the buffer the reader takes one item. -/
theorem cborDecode_takes_iff {v : Cbor} {next : ℕ} (hnext : next ≤ buf.length) :
    (cborDecode buf levels (some pos)).result = .ok (v, some next) ↔
      CborItem levels (buf.drop pos) v (buf.drop next) := by
  have hlevel := cborDecode_level buf levels
  constructor
  · intro hres
    cases hlevel.reads pos hpos with
    | item hg hitem =>
      rw [hg.result] at hres
      obtain ⟨rfl, hn⟩ := Prod.mk.inj (Except.ok.inj hres)
      obtain rfl := Option.some.inj hn
      exact hitem
    | @cut kind hb hc =>
      cases kind with
      | byte =>
        have := (hb.byte rfl).behind v _ hres next rfl
        omega
      | word =>
        rw [hb.word rfl] at hres
        cases hres
    | refused hr _ =>
      rw [hr] at hres
      cases hres
  · intro hitem
    obtain ⟨last, hg, hlast⟩ := hlevel.gives pos hpos v _ hitem
    have hlen := congrArg List.length hlast
    simp only [List.length_drop] at hlen
    have hbound := hg.bound
    obtain rfl : next = last := by omega
    exact hg.result

end Decode

end Klick
