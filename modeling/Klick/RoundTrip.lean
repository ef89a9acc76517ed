-- Encoding and parsing of intents and mandates, one after the other. Both
-- check the fields by the same rules, but only the parser bounds the digits
-- of an amount.
import Klick.Confirm

open Js

namespace Klick

/-- An intent is read back from its text exactly when its amounts have at most
40 digits, a mandate exactly when its total has; and whatever is read has the
text it was read from. -/
theorem texts_read_back_iff {A : AddressLib} (hA : AddressShapes A) :
    (∀ i t, encodeIntent A i = .ok t → (parseIntent A t = .ok i ↔ i.Fits)) ∧
    (∀ t i, parseIntent A t = .ok i → encodeIntent A i = .ok t) ∧
    (∀ m t, encodeMandate A m = .ok t → (parseMandate A t = .ok m ↔ m.Fits)) ∧
    (∀ t m, parseMandate A t = .ok m → encodeMandate A m = .ok t) := by
  refine ⟨?_, ?_, ?_, ?_⟩
  · intro i t h
    obtain ⟨hv, rfl⟩ := encodeIntent_eq_ok.mp h
    rw [parseIntent_eq_ok hA]
    constructor
    · rintro ⟨-, hf, -⟩
      exact hf
    · intro hf
      exact ⟨hv, hf, rfl⟩
  · intro t i h
    obtain ⟨hv, -, ht⟩ := of_parseIntent h
    exact encodeIntent_eq_ok.mpr ⟨hv, ht⟩
  · intro m t h
    obtain ⟨hv, rfl⟩ := encodeMandate_eq_ok.mp h
    rw [parseMandate_eq_ok hA]
    constructor
    · rintro ⟨-, hf, -⟩
      exact hf
    · intro hf
      exact ⟨hv, hf, rfl⟩
  · intro t m h
    obtain ⟨hv, -, ht⟩ := of_parseMandate h
    exact encodeMandate_eq_ok.mpr ⟨hv, ht⟩

/-- A payout of an amount with 41 digits. -/
def longPayout : Intent := { Confirm.payoutOfText with amount := some (10 ^ 40) }

theorem longPayout_valid : ValidIntent Confirm.oneAddress longPayout :=
  { Confirm.payoutOfText_valid with
    kindFields := by
      obtain ⟨account, asset, _, cap, since, h1, h2, h3, h4, -, -, h5, h6⟩ :=
        Confirm.payoutOfText_valid.kindFields
      exact ⟨account, asset, 10 ^ 40, cap, since, h1, h2, h3, h4, rfl, by norm_num, h5, h6⟩ }

/-- It is encoded, and its text is not read. -/
theorem long_amount_is_not_read : ∃ t, encodeIntent Confirm.oneAddress longPayout = .ok t ∧
    parseIntent Confirm.oneAddress t = .error "amount" :=
  ⟨longPayout.text, encodeIntent_eq_ok.mpr ⟨longPayout_valid, rfl⟩, by
    simp only [longPayout, Confirm.payoutOfText, Confirm.oneAddress]
    repeat rw [js_ofList]
    decide +kernel⟩

theorem payout_is_read_back : parseIntent Confirm.oneAddress Confirm.payoutText =
    .ok Confirm.payoutOfText := by
  have h : encodeIntent Confirm.oneAddress Confirm.payoutOfText = .ok Confirm.payoutText :=
    encodeIntent_eq_ok.mpr ⟨Confirm.payoutOfText_valid, Confirm.payoutOfText_text⟩
  exact ((texts_read_back_iff Confirm.shapes_oneAddress).1 _ _ h).mpr Confirm.payoutOfText_fits

end Klick
