-- The watch over downloads (`lib/dlp/egress.ts`) and the limit on requests
-- (`lib/rate-limit.ts`): the memory of the process holds for each key the admitted calls,
-- and a sweep forgets old ones once there are many keys.
import Klick.KeyedCalls
import Klick.OrderedMap
import Klick.Text

open Js KeyedCalls

namespace Klick.Egress

variable {κ : Type} [DecidableEq κ]

/-- Above so many keys an admitted call sweeps. -/
def maxKeys : ℕ := 10000

/-- What a sweep leaves of the times at a key. -/
def sweepTimes (from_ : ℤ) (times : List ℤ) : Option (List ℤ) :=
  if (live from_ times).isEmpty then none else some (live from_ times)

theorem sweepTimes_getD (from_ : ℤ) (times : Option (List ℤ)) :
    (times.bind (sweepTimes from_)).getD [] = live from_ (times.getD []) := by
  cases times with
  | none => rfl
  | some times =>
    simp only [Option.bind_some, Option.getD_some, sweepTimes]
    split
    · rename_i hempty
      exact (List.isEmpty_iff.mp hempty).symm
    · rfl

/-! ## Downloads -/

structure EgressDecision where
  allowed : Bool
  alert : Bool
  count : ℕ
deriving DecidableEq, Repr

structure EgressMonitor (κ : Type) where
  hits : OrderedMap κ (List ℤ)
  alerted : OrderedMap κ ℤ

namespace EgressMonitor

/-- `new EgressMonitor()` -/
def new : EgressMonitor κ := ⟨.empty, .empty⟩

def sweep (m : EgressMonitor κ) (now windowMs : ℤ) : EgressMonitor κ where
  hits := m.hits.filterMap (sweepTimes (now - windowMs))
  alerted := m.alerted.filterMap fun at_ => if at_ ≤ now - windowMs then none else some at_

def record (m : EgressMonitor κ) (key : κ) (limit windowMs now : ℤ) :
    EgressDecision × EgressMonitor κ :=
  if limit ≤ 0 then (⟨true, false, 0⟩, m)
  else
    let list := live (now - windowMs) ((m.hits.get key).getD [])
    if limit ≤ list.length then
      let alert := (m.alerted.get key).all (· ≤ now - windowMs)
      (⟨false, alert, list.length⟩,
        ⟨m.hits.set key list, if alert then m.alerted.set key now else m.alerted⟩)
    else
      let m' : EgressMonitor κ := { m with hits := m.hits.set key (list ++ [now]) }
      (⟨true, false, list.length + 1⟩, if maxKeys < m'.hits.size then m'.sweep now windowMs else m')

end EgressMonitor

/-! ## Requests -/

structure RateDecision where
  allowed : Bool
  remaining : WithTop ℤ
  retryAfterMs : ℤ
deriving DecidableEq

structure SlidingWindowLimiter (κ : Type) where
  limit : ℤ
  windowMs : ℤ
  hits : OrderedMap κ (List ℤ)

namespace SlidingWindowLimiter

/-- `new SlidingWindowLimiter(limit, windowMs)` -/
def new (limit windowMs : ℤ) : SlidingWindowLimiter κ := ⟨limit, windowMs, .empty⟩

def sweep (l : SlidingWindowLimiter κ) (now : ℤ) : SlidingWindowLimiter κ :=
  { l with hits := l.hits.filterMap (sweepTimes (now - l.windowMs)) }

def check (l : SlidingWindowLimiter κ) (key : κ) (now : ℤ) :
    RateDecision × SlidingWindowLimiter κ :=
  if l.limit ≤ 0 then (⟨true, ⊤, 0⟩, l)
  else
    let list := live (now - l.windowMs) ((l.hits.get key).getD [])
    if l.limit ≤ list.length then
      (⟨false, (0 : ℤ), list.head?.getD now + l.windowMs - now⟩,
        { l with hits := l.hits.set key list })
    else
      let l' := { l with hits := l.hits.set key (list ++ [now]) }
      (⟨true, (l.limit - (list.length + 1) : ℤ), 0⟩,
        if maxKeys < l'.hits.size then l'.sweep now else l')

end SlidingWindowLimiter

end Klick.Egress
