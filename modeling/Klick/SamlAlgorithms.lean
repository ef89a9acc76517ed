-- The algorithms of a SAML answer (`lib/auth/sso-saml.ts`): a search for tags and a small
-- reader of attributes stand for an XML parser. Both are loops over what is left of the text.
import Klick.Loops
import Klick.LowerCase

namespace Klick.Saml

open Js

/-- `SAML_SIGNATURE_ALGORITHMS` -/
def signatureAlgorithms : List Text :=
  [js "http://www.w3.org/2001/04/xmldsig-more#rsa-sha256",
   js "http://www.w3.org/2001/04/xmldsig-more#rsa-sha384",
   js "http://www.w3.org/2001/04/xmldsig-more#rsa-sha512",
   js "http://www.w3.org/2001/04/xmldsig-more#ecdsa-sha256",
   js "http://www.w3.org/2001/04/xmldsig-more#ecdsa-sha384",
   js "http://www.w3.org/2001/04/xmldsig-more#ecdsa-sha512",
   js "http://www.w3.org/2007/05/xmldsig-more#sha256-rsa-MGF1"]

/-- `SAML_DIGEST_ALGORITHMS` -/
def digestAlgorithms : List Text :=
  [js "http://www.w3.org/2001/04/xmlenc#sha256",
   js "http://www.w3.org/2001/04/xmldsig-more#sha384",
   js "http://www.w3.org/2001/04/xmlenc#sha512"]

/-! ## Attributes -/

def isQuote (u : UInt16) : Bool := u = ch '\x22' || u = ch '\x27'

/-- A round of `attribute`: the next attribute has the name, or what is left after it. -/
def attributeStep (name rest : Text) : Option Text ⊕ Text :=
  let rest := rest.dropWhile isTrimmed
  match rest with
  | [] => .inl none
  | c :: _ =>
    if c = ch '>' ∨ c = ch '/' then .inl none
    else
      match rest.dropWhile (· ≠ ch '=') with
      | [] => .inl none
      | _ :: right =>
        let attr := trim (rest.takeWhile (· ≠ ch '='))
        if attr = [] ∨ (attr.any fun u => isTrimmed u || u = ch '<' || u = ch '>') = true then
          .inl none
        else
          match right.dropWhile isTrimmed with
          | [] => .inl none
          | quote :: value =>
            if isQuote quote then
              match value.dropWhile (· ≠ quote) with
              | [] => .inl none
              | _ :: rest' =>
                if afterLast (ch ':') attr = name ∧ ch ':' ∉ attr then
                  .inl (some (value.takeWhile (· ≠ quote)))
                else .inr rest'
            else .inl none

theorem length_of_dropWhile {p : UInt16 → Bool} {t r : Text} {u : UInt16}
    (h : t.dropWhile p = u :: r) : r.length < t.length := by
  have := (List.dropWhile_sublist (l := t) p).length_le
  rw [h, List.length_cons] at this
  omega

theorem length_of_attributeStep {name rest rest' : Text}
    (h : attributeStep name rest = .inr rest') : rest'.length < rest.length := by
  unfold attributeStep at h
  dsimp only at h
  have hblank := (List.dropWhile_sublist (l := rest) isTrimmed).length_le
  generalize rest.dropWhile isTrimmed = rest₁ at h hblank
  cases rest₁ with
  | nil => cases h
  | cons c t =>
    dsimp only at h
    split at h
    · cases h
    split at h
    · cases h
    rename_i right heq
    split at h
    · cases h
    split at h
    · cases h
    rename_i quote value hquote
    split at h
    · split at h
      · cases h
      rename_i rest₂ hvalue
      split at h
      · cases h
      cases h
      have := length_of_dropWhile heq
      have := length_of_dropWhile hquote
      have := length_of_dropWhile hvalue
      omega
    · cases h

/-- The loop of `attribute`. -/
def attributeLoop (name : Text) : Loop Text (Option Text) where
  step := attributeStep name
  size := List.length
  shrinks _ _ := length_of_attributeStep

/-- `attribute`: the value of the attribute with a name, in a start tag read from after its own name. -/
def attributeIn (rest name : Text) : Option Text := (attributeLoop name).run rest

/-! ## Tags -/

/-- `[^\s/>!?]` -/
def isTagUnit (u : UInt16) : Bool :=
  !(isTrimmed u || u = ch '/' || u = ch '>' || u = ch '!' || u = ch '?')

/-- The next match of `<([^\s/>!?]+)`: its group, and what is left after it. -/
def nextTag : Text → Option (Text × Text)
  | [] => none
  | u :: t =>
    if u = ch '<' ∧ t.takeWhile isTagUnit ≠ [] then
      some (t.takeWhile isTagUnit, t.dropWhile isTagUnit)
    else nextTag t

theorem length_of_nextTag {t qname rest : Text} (h : nextTag t = some (qname, rest)) :
    rest.length < t.length := by
  induction t with
  | nil => cases h
  | cons u t ih =>
    unfold nextTag at h
    rw [List.length_cons]
    split_ifs at h
    · cases h
      have := (List.dropWhile_sublist (l := t) isTagUnit).length_le
      omega
    · have := ih h
      omega

inductive Method where
  | signature
  | digest
deriving DecidableEq

/-- What an element with a name is, by the local part. -/
def methodOf (qname : Text) : Option Method :=
  if afterLast (ch ':') qname = js "SignatureMethod" then some .signature
  else if afterLast (ch ':') qname = js "DigestMethod" then some .digest
  else none

def Method.algorithms : Method → List Text
  | .signature => signatureAlgorithms
  | .digest => digestAlgorithms

/-- A round of `samlAlgorithmsAllowed`, with what is left of the text and the number of
signatures so far. -/
def methodStep : Text × ℕ → Bool ⊕ (Text × ℕ)
  | (rest, signatures) =>
    match nextTag rest with
    | none => .inl (0 < signatures)
    | some (qname, rest') =>
      match methodOf qname with
      | none => .inr (rest', signatures)
      | some m =>
        match attributeIn rest' (js "Algorithm") with
        | none => .inl false
        | some alg =>
          if alg ∈ m.algorithms then
            .inr (rest', if m = .signature then signatures + 1 else signatures)
          else .inl false

theorem length_of_methodStep {s s' : Text × ℕ} (h : methodStep s = .inr s') :
    s'.1.length < s.1.length := by
  obtain ⟨rest, signatures⟩ := s
  unfold methodStep at h
  dsimp only at h ⊢
  cases htag : nextTag rest with
  | none =>
    rw [htag] at h
    cases h
  | some found =>
    obtain ⟨qname, rest'⟩ := found
    have hlength := length_of_nextTag htag
    rw [htag] at h
    dsimp only at h
    split at h
    · cases h
      exact hlength
    · split at h
      · cases h
      · split_ifs at h
        · cases h
          exact hlength
        · cases h
          exact hlength

/-- The loop of `samlAlgorithmsAllowed`. -/
def methodLoop : Loop (Text × ℕ) Bool where
  step := methodStep
  size s := s.1.length
  shrinks _ _ := length_of_methodStep

/-- All methods of an answer are allowed, and there is a signature. -/
def samlAlgorithmsAllowed (xml : Text) : Bool := methodLoop.run (xml, 0)

example : samlAlgorithmsAllowed (js "<a/>") = false := by decide

end Klick.Saml
