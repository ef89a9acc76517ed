-- What the readers of security files make of a JSON value that they did not choose: a
-- field is read as an object, a list or a text, and counts as absent where it is not one.
import Klick.Coercion

namespace Klick.Security

open Js

def isObj : Value → Bool
  | .obj _ => true
  | _ => false

def arr : Value → List Value
  | .arr items => items
  | _ => []

/-- A text that is not blank, trimmed. -/
def str : Value → Option Text
  | .str t => if trim t = [] then none else some (trim t)
  | _ => none

/-- A value that is a text, as it stands. -/
def textOf : Value → Option Text
  | .str t => some t
  | _ => none

/-- `v.k` -/
def prop (v : Value) (k : String) : Value := v.get (js k)

/-- `isObj(v) ? str(v.k) : null` -/
def strIn (v : Value) (k : String) : Option Text := if isObj v then str (prop v k) else none

/-- `k in v` -/
def hasKey (v : Value) (k : String) : Bool :=
  match v with
  | .obj fields => js k ∈ keys fields
  | _ => false

@[simp] theorem arr_arr (items : List Value) : arr (.arr items) = items := rfl

theorem str_ne_nil {v : Value} {t : Text} (h : str v = some t) : t ≠ [] := by
  unfold str at h
  split at h
  · split_ifs at h with hblank
    cases h
    exact hblank
  · cases h

end Klick.Security
