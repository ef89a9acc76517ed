-- XML without a document type: the pieces of its markup as texts, the names that tags may
-- have, and the values of attributes as a parser gives them.
import Klick.Coercion
import Klick.Utf8

namespace Xml

open Js

/-! ## Names -/

/-- Where a name can start. Surrogates stand for the letters from 0x10000 on. -/
def nameStarts : List (ℕ × ℕ) :=
  [(0x3a, 0x3a), (0x41, 0x5a), (0x5f, 0x5f), (0x61, 0x7a), (0xc0, 0xd6), (0xd8, 0xf6),
   (0xf8, 0x2ff), (0x370, 0x37d), (0x37f, 0x1fff), (0x200c, 0x200d), (0x2070, 0x218f),
   (0x2c00, 0x2fef), (0x3001, 0xdfff), (0xf900, 0xfdcf), (0xfdf0, 0xfffd)]

/-- What a name can go on with besides. -/
def nameExtras : List (ℕ × ℕ) :=
  [(0x2d, 0x2e), (0x30, 0x39), (0xb7, 0xb7), (0x300, 0x36f), (0x203f, 0x2040)]

def inRanges (ranges : List (ℕ × ℕ)) (u : UInt16) : Bool :=
  ranges.any fun r => r.1 ≤ u.toNat && u.toNat ≤ r.2

def isNameStart (u : UInt16) : Bool := inRanges nameStarts u

def isNameUnit (u : UInt16) : Bool := inRanges (nameStarts ++ nameExtras) u

/-- A name; a colon in it ends a prefix. -/
structure Name where
  text : Text
  starts : text.head?.any isNameStart = true
  units : text.all isNameUnit = true

theorem Name.ne_nil (n : Name) : n.text ≠ [] := by
  intro h
  have := n.starts
  rw [h] at this
  cases this

theorem Name.unit (n : Name) {u : UInt16} (h : u ∈ n.text) : isNameUnit u = true :=
  List.all_eq_true.mp n.units u h

/-- Two characters only are both blanks of a script and characters of a name. -/
theorem blank_of_isNameUnit {u : UInt16} (h : isNameUnit u = true) (hblank : isTrimmed u = true) :
    u.toNat = 0x1680 ∨ u.toNat = 0xfeff := by
  simp only [isNameUnit, inRanges, nameStarts, nameExtras, List.cons_append, List.nil_append,
    List.any_cons, List.any_nil, Bool.or_false, Bool.or_eq_true, Bool.and_eq_true,
    decide_eq_true_eq] at h
  simp only [isTrimmed, List.mem_cons, List.not_mem_nil, or_false, Bool.or_eq_true,
    Bool.and_eq_true, decide_eq_true_eq] at hblank
  omega

/-- None of the characters of markup stands in a name. -/
theorem ne_of_isNameUnit {u : UInt16} (h : isNameUnit u = true) : u ≠ ch '<' ∧ u ≠ ch '>' ∧
    u ≠ ch '/' ∧ u ≠ ch '=' ∧ u ≠ ch '!' ∧ u ≠ ch '?' := by
  refine ⟨?_, ?_, ?_, ?_, ?_, ?_⟩ <;> rintro rfl <;> revert h <;> decide

/-! ## Attributes -/

inductive Quote where
  | single
  | double
deriving DecidableEq

def Quote.unit : Quote → UInt16
  | .single => ch '\x27'
  | .double => ch '\x22'

/-- An attribute with the blanks before it and around its sign. -/
structure Attribute where
  before : Text
  name : Name
  left : Text
  right : Text
  quote : Quote
  value : Text
  blanks : (before ++ left ++ right).all isSpace = true
  apart : before ≠ []
  inside : quote.unit ∉ value ∧ ch '<' ∉ value

def Attribute.render (a : Attribute) : Text :=
  a.before ++ (a.name.text ++ (a.left ++ ch '=' :: (a.right ++
    a.quote.unit :: (a.value ++ [a.quote.unit]))))

/-- What a reference stands for. -/
def referenced (name : Text) : Option Text :=
  if name = js "lt" then some (js "<")
  else if name = js "gt" then some (js ">")
  else if name = js "amp" then some (js "&")
  else if name = js "apos" then some (js "\x27")
  else if name = js "quot" then some (js "\x22")
  else if (js "#x").isPrefixOf name then (radixValue 16 (name.drop 2)).map unitsOf
  else if (js "#").isPrefixOf name then (radixValue 10 (name.drop 1)).map unitsOf
  else none

/-- Ends of lines become one character. -/
def lineEnds : Text → Text
  | [] => []
  | u :: t =>
    if u = ch '\r' then
      if t.head? = some (ch '\n') then lineEnds t else ch '\n' :: lineEnds t
    else u :: lineEnds t

/-- References are replaced and blanks become spaces; `name` is what stands since the last
`&`. -/
def expand : Option Text → Text → Text
  | _, [] => []
  | none, u :: t =>
    if u = ch '&' then expand (some []) t
    else (if isSpace u then ch ' ' else u) :: expand none t
  | some name, u :: t =>
    if u = ch ';' then (referenced name).getD [] ++ expand none t
    else expand (some (name ++ [u])) t

/-- The value that a parser gives for what stands between the quotes. -/
def normalizeValue (t : Text) : Text := expand none (lineEnds t)

/-- A value without references and blanks stays as it is. -/
theorem normalizeValue_eq {t : Text} (h : (t.all fun u => u ≠ ch '&' && !isSpace u) = true) :
    normalizeValue t = t := by
  rw [List.all_eq_true] at h
  have hunit : ∀ u ∈ t, u ≠ ch '&' ∧ isSpace u = false := by
    intro u hu
    simpa using h u hu
  have hlines : lineEnds t = t := by
    clear h
    induction t with
    | nil => rfl
    | cons u t ih =>
      obtain ⟨hu, ht⟩ := List.forall_mem_cons.mp hunit
      have hreturn : u ≠ ch '\r' := by
        rintro rfl
        exact absurd hu.2 (by decide)
      rw [lineEnds, if_neg hreturn, ih ht]
  unfold normalizeValue
  rw [hlines]
  clear h hlines
  induction t with
  | nil => rfl
  | cons u t ih =>
    obtain ⟨hu, ht⟩ := List.forall_mem_cons.mp hunit
    rw [expand, if_neg hu.1, hu.2, ih ht]
    rfl

/-! ## Documents -/

structure StartTag where
  name : Name
  attributes : List Attribute
  blank : Text
  closed : Bool
  blanks : blank.all isSpace = true
  distinct : (attributes.map (·.name.text)).Nodup

/-- What stands between the name of a tag and its end. -/
def StartTag.inner (t : StartTag) : Text :=
  t.attributes.flatMap Attribute.render ++ (t.blank ++ if t.closed then [ch '/'] else [])

def StartTag.render (t : StartTag) : Text :=
  ch '<' :: (t.name.text ++ (t.inner ++ [ch '>']))

/-- The value of the attribute with a name. -/
def StartTag.attribute? (t : StartTag) (name : Text) : Option Attribute :=
  t.attributes.find? fun a => a.name.text = name

structure EndTag where
  name : Name
  blank : Text
  blanks : blank.all isSpace = true

def EndTag.render (t : EndTag) : Text :=
  ch '<' :: ch '/' :: (t.name.text ++ (t.blank ++ [ch '>']))

/-- A list stands in no place of a text. -/
def Misses (stop t : Text) : Prop := ¬ stop <:+: t

/-- The pieces of a document; an XML declaration is an instruction. -/
inductive Piece where
  | text (t : Text) (h : ch '<' ∉ t)
  | comment (t : Text) (h : Misses (js "--") (t ++ [ch '-']))
  | cdata (t : Text) (h : Misses (js "]]>") t)
  | instruction (t : Text) (h : Misses (js "?>") t)
  | start (tag : StartTag)
  | stop (tag : EndTag)

def Piece.render : Piece → Text
  | .text t _ => t
  | .comment t _ => js "<!--" ++ t ++ js "-->"
  | .cdata t _ => js "<![CDATA[" ++ t ++ js "]]>"
  | .instruction t _ => js "<?" ++ t ++ js "?>"
  | .start tag => tag.render
  | .stop tag => tag.render

abbrev Document := List Piece

def Document.render (d : Document) : Text := d.flatMap Piece.render

/-- The tags of the elements, in the order in which they start. -/
def Document.elements (d : Document) : List StartTag :=
  d.filterMap fun p => match p with
    | .start tag => some tag
    | _ => none

/-- Every element is closed by its own tag; `names` are those of the open elements. -/
def nests : List Text → Document → Bool
  | names, [] => names = []
  | names, .start tag :: d => if tag.closed then nests names d else nests (tag.name.text :: names) d
  | names, .stop tag :: d =>
    match names with
    | [] => false
    | name :: rest => name = tag.name.text && nests rest d
  | names, _ :: d => nests names d

end Xml
