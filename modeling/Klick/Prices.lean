-- Prices from the rounds of feeds (`lib/wallet/prices.ts`, `core/feeds.ts`): the price at a time
-- is that of the last round before it, and a price in euros divides two series, which two cursors
-- walk through side by side.
import Mathlib.Data.List.Sort
import Mathlib.Data.Rat.Floor

namespace Klick.Prices

/-! ## Feeds -/

/-- The feeds, each in US dollars. -/
inductive FeedKey
  | btc | eth | usdc | eur
deriving DecidableEq

inductive Pair
  | btcEur | ethEur | usdcEur | btcUsd | ethUsd | eurUsd
deriving DecidableEq

structure Feeds where
  base : FeedKey
  divisor : Option FeedKey

/-- The feeds of a pair: directly, or divided by the euro. -/
def feedsOfPair : Pair → Feeds
  | .btcUsd => ⟨.btc, none⟩
  | .ethUsd => ⟨.eth, none⟩
  | .eurUsd => ⟨.eur, none⟩
  | .btcEur => ⟨.btc, some .eur⟩
  | .ethEur => ⟨.eth, some .eur⟩
  | .usdcEur => ⟨.usdc, some .eur⟩

/-! ## Series -/

/-- A price with eight decimal places at a time in milliseconds. -/
structure Tick where
  at_ : ℤ
  value : ℤ
deriving DecidableEq

/-- `SCALE` -/
def scale : ℤ := 10 ^ 8

/-- Ticks by their times; ticks of one time keep their order. -/
def sortTicks (ticks : List Tick) : List Tick := ticks.insertionSort fun x y => x.at_ ≤ y.at_

/-- `while (j + 1 < d.length && d[j + 1].at <= t.at) j += 1`, in as many turns as `d` is long. -/
def advance (d : List Tick) (time : ℤ) : ℕ → ℕ → ℕ
  | 0, j => j
  | turns + 1, j => if d[j + 1]?.any (·.at_ ≤ time) then advance d time turns (j + 1) else j

/-- The loop over the base ticks. Dividing by zero throws. -/
def pairFrom (d : List Tick) (j : ℕ) : List Tick → Option (List Tick)
  | [] => some []
  | t :: ts =>
    let j := advance d t.at_ d.length j
    match d[j]? with
    | none => none
    | some div =>
      -- no divisor is known yet
      if t.at_ < div.at_ ∧ j = 0 then pairFrom d j ts
      else if div.value = 0 then none
      else (pairFrom d j ts).map (⟨t.at_, (t.value * scale).tdiv div.value⟩ :: ·)

def pairSeries (pair : Pair) (ticks : FeedKey → List Tick) : Option (List Tick) :=
  let b := sortTicks (ticks (feedsOfPair pair).base)
  match (feedsOfPair pair).divisor with
  | none => some b
  | some divisor =>
    let d := sortTicks (ticks divisor)
    if d = [] then some [] else pairFrom d 0 b

/-- The loop of `priceAt`. -/
def priceFrom (time : ℤ) (best : Option Tick) : List Tick → Option ℤ
  | [] => best.map (·.value)
  | t :: ts => if t.at_ ≤ time then priceFrom time (some t) ts else best.map (·.value)

def priceAt (series : List Tick) (time : ℤ) : Option ℤ := priceFrom time none series

/-! ## The price at a time -/

/-- The ticks up to a time. -/
def known (time : ℤ) (series : List Tick) : List Tick := series.takeWhile (·.at_ ≤ time)

theorem priceFrom_eq (time : ℤ) (best : Option Tick) (series : List Tick) :
    priceFrom time best series = ((known time series).getLast?.or best).map (·.value) := by
  induction series generalizing best with
  | nil => rfl
  | cons t ts ih =>
    unfold priceFrom known
    by_cases h : t.at_ ≤ time
    · rw [if_pos h, ih, List.takeWhile_cons_of_pos (by simpa using h), List.getLast?_cons]
      cases hlast : (known time ts).getLast? with
      | none =>
        unfold known at hlast
        simp [hlast]
      | some x =>
        unfold known at hlast
        simp [hlast]
    · rw [if_neg h, List.takeWhile_cons_of_neg (by simpa using h)]
      rfl

/-- The price at a time is that of the last tick up to it. -/
theorem priceAt_eq (series : List Tick) (time : ℤ) :
    priceAt series time = (known time series).getLast?.map (·.value) := by
  unfold priceAt
  rw [priceFrom_eq, Option.or_none]

/-- Ticks in the order of their times. -/
def InOrder (series : List Tick) : Prop := series.Pairwise fun x y => x.at_ ≤ y.at_

theorem inOrder_sortTicks (ticks : List Tick) : InOrder (sortTicks ticks) := by
  have : Std.Total fun x y : Tick => x.at_ ≤ y.at_ := ⟨fun x y => le_total x.at_ y.at_⟩
  have : IsTrans Tick fun x y => x.at_ ≤ y.at_ := ⟨fun _ _ _ => le_trans⟩
  exact List.pairwise_insertionSort _ ticks

/-- In a series in order, the ticks up to a time end where the next one is later. -/
theorem known_eq_take {d : List Tick} (hd : InOrder d) {time : ℤ} {j : ℕ} {x : Tick}
    (hx : d[j]? = some x) (hle : x.at_ ≤ time) (hnext : ∀ y, d[j + 1]? = some y → time < y.at_) :
    known time d = d.take (j + 1) := by
  induction d generalizing j with
  | nil => cases hx
  | cons t ts ih =>
    obtain ⟨ht, hts⟩ := List.pairwise_cons.mp hd
    have hfirst : t.at_ ≤ time := by
      cases j with
      | zero =>
        cases hx
        exact hle
      | succ j => exact (ht x (List.mem_of_getElem? hx)).trans hle
    unfold known
    rw [List.takeWhile_cons_of_pos (by simpa using hfirst), List.take_succ_cons]
    congr 1
    cases j with
    | zero =>
      cases ts with
      | nil => rfl
      | cons y ys =>
        have hy := hnext y rfl
        rw [List.takeWhile_cons_of_neg (by simpa using hy)]
        rfl
    | succ j => exact ih hts hx hnext

/-! ## The cursors -/

/-- Where the cursor stands when a base tick has been paired: at the last divisor up to its time,
or at the first one. -/
structure Stands (d : List Tick) (time : ℤ) (j : ℕ) : Prop where
  inside : j < d.length
  reached : ∀ x, d[j]? = some x → x.at_ ≤ time ∨ j = 0

theorem Stands.later {d : List Tick} {s t : ℤ} {j : ℕ} (h : Stands d s j) (hst : s ≤ t) :
    Stands d t j := ⟨h.inside, fun x hx => (h.reached x hx).imp_left fun hle => hle.trans hst⟩

/-- The cursor moves on to the last divisor up to a time. -/
theorem advance_spec {d : List Tick} {time : ℤ} {turns j : ℕ} (h : Stands d time j)
    (hturns : d.length ≤ turns + j + 1) :
    Stands d time (advance d time turns j) ∧
      ∀ y, d[advance d time turns j + 1]? = some y → time < y.at_ := by
  induction turns generalizing j with
  | zero =>
    refine ⟨h, ?_⟩
    intro y hy
    have hlt := (List.getElem?_eq_some_iff.mp hy).1
    unfold advance at hlt
    omega
  | succ turns ih =>
    unfold advance
    by_cases hnext : d[j + 1]?.any (·.at_ ≤ time) = true
    · rw [if_pos hnext]
      obtain ⟨y, hy, hle⟩ := (Option.any_eq_true _ _).mp hnext
      refine ih ⟨(List.getElem?_eq_some_iff.mp hy).1, ?_⟩ (by omega)
      intro x hx
      rw [hy] at hx
      cases hx
      exact .inl (by simpa using hle)
    · rw [if_neg hnext]
      refine ⟨h, ?_⟩
      intro y hy
      rw [hy] at hnext
      simpa using hnext

/-- A base tick with the price of the divisor at its time. -/
def paired (d : List Tick) (t : Tick) : Option Tick :=
  (priceAt d t.at_).map fun price => ⟨t.at_, (t.value * scale).tdiv price⟩

/-- Where the cursor stands, the price is known, or no divisor is known yet. -/
theorem priceAt_of_stands {d : List Tick} (hd : InOrder d) {time : ℤ} {j : ℕ} {x : Tick}
    (h : Stands d time j) (hx : d[j]? = some x)
    (hnext : ∀ y, d[j + 1]? = some y → time < y.at_) :
    priceAt d time = if time < x.at_ ∧ j = 0 then none else some x.value := by
  rw [priceAt_eq]
  by_cases hle : x.at_ ≤ time
  · have hlt : j < d.length := h.inside
    rw [if_neg (by omega), known_eq_take hd hx hle hnext, List.getLast?_take, if_neg (by omega),
      Nat.add_sub_cancel, hx]
    rfl
  · have hzero : j = 0 := (h.reached x hx).resolve_left hle
    rw [if_pos ⟨by omega, hzero⟩]
    subst hzero
    cases d with
    | nil => cases hx
    | cons y ys =>
      cases hx
      unfold known
      rw [List.takeWhile_cons_of_neg (by simpa using hle)]
      rfl

/-- The loop pairs each base tick with the price of the divisor at its time. -/
theorem pairFrom_eq {d b : List Tick} (hd : InOrder d) (hb : InOrder b)
    (hpos : ∀ x ∈ d, 0 < x.value) {j : ℕ} (h : ∀ t ∈ b, Stands d t.at_ j) :
    pairFrom d j b = some (b.filterMap (paired d)) := by
  induction b generalizing j with
  | nil => rfl
  | cons t ts ih =>
    obtain ⟨hle, hts⟩ := List.pairwise_cons.mp hb
    have hturns : d.length ≤ d.length + j + 1 := by omega
    obtain ⟨hstands, hnext⟩ := advance_spec (h t List.mem_cons_self) hturns
    have hrest := ih hts fun u hu => hstands.later (hle u hu)
    obtain ⟨x, hx⟩ : ∃ x, d[advance d t.at_ d.length j]? = some x :=
      ⟨_, List.getElem?_eq_getElem hstands.inside⟩
    have hprice := priceAt_of_stands hd hstands hx hnext
    unfold pairFrom
    dsimp only
    rw [hx, List.filterMap_cons]
    dsimp only
    by_cases hnone : t.at_ < x.at_ ∧ advance d t.at_ d.length j = 0
    · rw [if_pos hnone] at hprice
      rw [if_pos hnone, hrest]
      unfold paired
      rw [hprice]
      rfl
    · rw [if_neg hnone] at hprice
      have hvalue := hpos x (List.mem_of_getElem? hx)
      rw [if_neg hnone, if_neg (by omega), hrest]
      unfold paired
      rw [hprice]
      rfl

/-! ## The rule -/

theorem mem_sortTicks {ticks : List Tick} {t : Tick} : t ∈ sortTicks ticks ↔ t ∈ ticks :=
  List.mem_insertionSort _

/-- A base tick with the quotient rounded down. -/
def pairedDown (d : List Tick) (t : Tick) : Option Tick :=
  (priceAt d t.at_).map fun price : ℤ => ⟨t.at_, ⌊((t.value * scale : ℤ) : ℚ) / price⌋⟩

theorem tdiv_eq_floor {a b : ℤ} (ha : 0 ≤ a) (hb : 0 < b) : a.tdiv b = ⌊(a : ℚ) / b⌋ := by
  lift b to ℕ using hb.le
  rw [Int.tdiv_eq_ediv_of_nonneg ha]
  exact (Rat.floor_intCast_div_natCast a b).symm

theorem price_mem {d : List Tick} {time price : ℤ} (h : priceAt d time = some price) :
    ∃ x ∈ d, x.value = price := by
  rw [priceAt_eq] at h
  obtain ⟨x, hx, rfl⟩ := Option.map_eq_some_iff.mp h
  exact ⟨x, (List.takeWhile_sublist _).subset (List.mem_of_getLast? hx), rfl⟩

/-- Rounding toward zero is rounding down where the base is not below zero. -/
theorem paired_eq_pairedDown {d : List Tick} (hpos : ∀ x ∈ d, 0 < x.value) {t : Tick}
    (ht : 0 ≤ t.value) : paired d t = pairedDown d t := by
  unfold paired pairedDown
  apply Option.map_congr
  intro price hprice
  obtain ⟨x, hx, rfl⟩ := price_mem hprice
  have hscale : (0 : ℤ) ≤ scale := by decide
  rw [tdiv_eq_floor (mul_nonneg ht hscale) (hpos x hx)]

/-- **The cursors find what the price at each time gives**: the base ticks for which a divisor is
known, in the order of their times, each divided by the divisor at its time. The quotient is
rounded toward zero, and so down where no base tick is below zero. -/
theorem pairSeries_eq {pair : Pair} {divisor : FeedKey}
    (hpair : (feedsOfPair pair).divisor = some divisor) (ticks : FeedKey → List Tick)
    (hpos : ∀ x ∈ ticks divisor, 0 < x.value) :
    let b := sortTicks (ticks (feedsOfPair pair).base)
    let d := sortTicks (ticks divisor)
    pairSeries pair ticks = some (b.filterMap (paired d)) ∧
    ((∀ t ∈ b, 0 ≤ t.value) → pairSeries pair ticks = some (b.filterMap (pairedDown d))) := by
  intro b d
  have hd : InOrder d := inOrder_sortTicks _
  have hsorted : ∀ x ∈ d, 0 < x.value := fun x hx => hpos x (mem_sortTicks.mp hx)
  have hseries : pairSeries pair ticks = some (b.filterMap (paired d)) := by
    unfold pairSeries
    dsimp only
    rw [hpair]
    dsimp only
    by_cases hnil : d = []
    · rw [if_pos hnil, hnil]
      congr 1
      exact (List.filterMap_eq_nil_iff.mpr fun t _ => rfl).symm
    · rw [if_neg hnil]
      have hlength := List.length_pos_of_ne_nil hnil
      exact pairFrom_eq hd (inOrder_sortTicks _) hsorted fun t _ => ⟨hlength, fun _ _ => .inr rfl⟩
  refine ⟨hseries, ?_⟩
  intro hbase
  rw [hseries, List.filterMap_congr fun t ht => paired_eq_pairedDown hsorted (hbase t ht)]

/-- A base tick below zero, and one dollar for a third of it. -/
def belowZero : FeedKey → List Tick
  | .btc => [⟨0, -1⟩]
  | .eur => [⟨0, 3 * scale⟩]
  | _ => []

theorem below_zero_is_not_rounded_down : pairSeries .btcEur belowZero = some [⟨0, 0⟩] ∧
    (sortTicks (belowZero .btc)).filterMap (pairedDown (sortTicks (belowZero .eur))) =
      [⟨0, -1⟩] := by
  constructor
  · decide
  · simp [belowZero, sortTicks, pairedDown, priceAt, priceFrom, scale]
    norm_num

/-- Two rounds of the euro, one before and one behind a round of the base. -/
def sampleTicks : FeedKey → List Tick
  | .btc => [⟨5, 6 * scale⟩, ⟨1, scale⟩]
  | .eur => [⟨9, scale⟩, ⟨3, 2 * scale⟩]
  | _ => []

theorem sample_is_paired : pairSeries .btcEur sampleTicks =
    some ((sortTicks (sampleTicks .btc)).filterMap (pairedDown (sortTicks (sampleTicks .eur)))) :=
  (pairSeries_eq rfl sampleTicks (by decide)).2 (by decide)

end Klick.Prices
