-- What the search for methods says of a document of XML: it finds the methods of the
-- elements, and those that comments, character data and instructions only look like.
import Klick.SamlAlgorithms
import Klick.Xml

namespace Klick.Saml

open Js Xml

/-! ## The methods of a text -/

/-- The methods that the search finds in a text, each with the algorithm that is read of it;
the reading may go on into what stands after the text. -/
def methodsBefore (after t : Text) : List (Method × Option Text) :=
  match _h : nextTag t with
  | none => []
  | some (qname, rest) =>
    ((methodOf qname).map fun m => (m, attributeIn (rest ++ after) (js "Algorithm"))).toList ++
      methodsBefore after rest
termination_by t.length
decreasing_by exact length_of_nextTag _h

theorem methodsBefore_of_none {t : Text} (h : nextTag t = none) (after : Text) :
    methodsBefore after t = [] := by
  rw [methodsBefore.eq_def]
  split
  · rfl
  · rename_i heq
    rw [h] at heq
    cases heq

theorem methodsBefore_of_some {t qname rest : Text} (h : nextTag t = some (qname, rest))
    (after : Text) : methodsBefore after t =
      ((methodOf qname).map fun m => (m, attributeIn (rest ++ after) (js "Algorithm"))).toList ++
        methodsBefore after rest := by
  rw [methodsBefore.eq_def]
  split
  · rename_i heq
    rw [h] at heq
    cases heq
  · rename_i heq
    rw [h] at heq
    cases heq
    rfl

/-- The algorithm of a method is one of its list. -/
def Passes (m : Method × Option Text) : Prop := ∃ alg, m.2 = some alg ∧ alg ∈ m.1.algorithms

theorem run_methodLoop (t : Text) (signatures : ℕ) :
    methodLoop.run (t, signatures) = true ↔ (∀ m ∈ methodsBefore [] t, Passes m) ∧
      (0 < signatures ∨ ∃ m ∈ methodsBefore [] t, m.1 = .signature) := by
  induction hn : t.length using Nat.strong_induction_on generalizing t signatures with
  | _ n ih =>
    subst hn
    have hstep : methodLoop.step (t, signatures) = methodStep (t, signatures) := rfl
    unfold methodStep at hstep
    dsimp only at hstep
    cases htag : nextTag t with
    | none =>
      rw [htag] at hstep
      rw [methodLoop.run_of_inl hstep, methodsBefore_of_none htag]
      simp
    | some found =>
      obtain ⟨qname, rest⟩ := found
      have hrest (k : ℕ) := ih _ (length_of_nextTag htag) rest k rfl
      rw [htag] at hstep
      rw [methodsBefore_of_some htag, List.append_nil]
      dsimp only at hstep
      cases hm : methodOf qname with
      | none =>
        rw [hm] at hstep
        rw [methodLoop.run_of_inr hstep, hrest]
        simp
      | some m =>
        rw [hm] at hstep
        dsimp only at hstep
        simp only [Option.map_some, Option.toList_some, List.singleton_append,
          List.forall_mem_cons, List.exists_mem_cons_iff]
        cases halg : attributeIn rest (js "Algorithm") with
        | none =>
          rw [halg] at hstep
          rw [methodLoop.run_of_inl hstep]
          simp [Passes]
        | some alg =>
          rw [halg] at hstep
          dsimp only at hstep
          by_cases hin : alg ∈ m.algorithms
          · rw [if_pos hin] at hstep
            rw [methodLoop.run_of_inr hstep, hrest]
            have hpasses : Passes (m, some alg) := ⟨alg, rfl, hin⟩
            cases m with
            | signature => simp [hpasses]
            | digest => simp [hpasses]
          · rw [if_neg hin] at hstep
            rw [methodLoop.run_of_inl hstep]
            simp [Passes, hin]

/-- An answer is allowed exactly where all methods found pass and one is a signature. -/
theorem samlAlgorithmsAllowed_iff (xml : Text) :
    samlAlgorithmsAllowed xml = true ↔ (∀ m ∈ methodsBefore [] xml, Passes m) ∧
      ∃ m ∈ methodsBefore [] xml, m.1 = .signature := by
  unfold samlAlgorithmsAllowed
  rw [run_methodLoop]
  simp

/-! ## Parts of a text -/

theorem methodsBefore_congr {t t' : Text} (h : nextTag t = nextTag t') (after : Text) :
    methodsBefore after t = methodsBefore after t' := by
  cases htag : nextTag t' with
  | none => rw [methodsBefore_of_none (h.trans htag), methodsBefore_of_none htag]
  | some found =>
    rw [methodsBefore_of_some (h.trans htag), methodsBefore_of_some htag]

/-- Where no tag opens there is no method. -/
theorem methodsBefore_free {t : Text} (h : ch '<' ∉ t) (after more : Text) :
    methodsBefore after (t ++ more) = methodsBefore after more := by
  apply methodsBefore_congr
  induction t with
  | nil => rfl
  | cons u t ih =>
    rw [List.mem_cons, not_or] at h
    rw [List.cons_append, nextTag, if_neg (fun hu => h.1 hu.1.symm), ih h.2]

theorem takeWhile_stop {p : UInt16 → Bool} {u : UInt16} (hu : p u = false) (t more : Text) :
    (t ++ u :: more).takeWhile p = t.takeWhile p := by
  induction t with
  | nil => simp [hu]
  | cons v t ih => simp [List.takeWhile_cons, ih]

theorem dropWhile_stop {p : UInt16 → Bool} {u : UInt16} (hu : p u = false) (t more : Text) :
    (t ++ u :: more).dropWhile p = t.dropWhile p ++ u :: more := by
  induction t with
  | nil => simp [hu]
  | cons v t ih =>
    by_cases hv : p v = true
    · simp [hv, ih]
    · simp [hv]

/-- No tag reaches over the end of another one. -/
theorem nextTag_closed (t more : Text) :
    (nextTag (t ++ [ch '>']) = none ∧ nextTag (t ++ ch '>' :: more) = nextTag more) ∨
      ∃ qname r, r.length < t.length ∧ nextTag (t ++ [ch '>']) = some (qname, r ++ [ch '>']) ∧
        nextTag (t ++ ch '>' :: more) = some (qname, r ++ ch '>' :: more) := by
  have hend : isTagUnit (ch '>') = false := by decide
  induction t with
  | nil =>
    left
    have hopen : ¬ (ch '>' = ch '<') := by decide
    refine ⟨?_, ?_⟩
    · rw [List.nil_append, nextTag, if_neg (fun h => hopen h.1), nextTag]
    · rw [List.nil_append, nextTag, if_neg (fun h => hopen h.1)]
  | cons u t ih =>
    rw [List.cons_append, List.cons_append, nextTag, nextTag, takeWhile_stop hend,
      takeWhile_stop hend, dropWhile_stop hend, dropWhile_stop hend]
    by_cases hu : u = ch '<' ∧ t.takeWhile isTagUnit ≠ []
    · right
      rw [if_pos hu, if_pos hu]
      refine ⟨_, _, ?_, rfl, rfl⟩
      have := (List.dropWhile_sublist (l := t) isTagUnit).length_le
      rw [List.length_cons]
      omega
    · rw [if_neg hu, if_neg hu]
      rcases ih with ih | ⟨qname, r, hr, ih⟩
      · exact .inl ih
      · refine .inr ⟨qname, r, ?_, ih⟩
        rw [List.length_cons]
        omega

/-- The methods of a text that ends with the end of a tag are found before all others. -/
theorem methodsBefore_closed (t more after : Text) :
    methodsBefore after (t ++ ch '>' :: more) =
      methodsBefore (more ++ after) (t ++ [ch '>']) ++ methodsBefore after more := by
  induction hn : t.length using Nat.strong_induction_on generalizing t with
  | _ n ih =>
    subst hn
    rcases nextTag_closed t more with ⟨hnone, hmore⟩ | ⟨qname, r, hr, hsome, hmore⟩
    · rw [methodsBefore_of_none hnone, List.nil_append, methodsBefore_congr hmore]
    · rw [methodsBefore_of_some hsome, methodsBefore_of_some hmore, ih _ hr r rfl,
        List.append_assoc (r) _ (more ++ after), List.append_assoc, List.append_assoc]
      rfl

/-! ## Start tags -/

/-- Neither of the two characters that a script takes for blanks stands in the name. -/
def PlainName (t : Text) : Prop := ∀ u ∈ t, u.toNat ≠ 0x1680 ∧ u.toNat ≠ 0xfeff

theorem PlainName.visible {n : Name} (h : PlainName n.text) {u : UInt16} (hu : u ∈ n.text) :
    isTrimmed u = false := by
  by_contra hblank
  rw [Bool.not_eq_false] at hblank
  have hne := h u hu
  rcases blank_of_isNameUnit (n.unit hu) hblank with h' | h'
  · exact hne.1 h'
  · exact hne.2 h'

theorem isTrimmed_of_isSpace {u : UInt16} (h : isSpace u = true) : isTrimmed u = true := by
  unfold isSpace at h
  simp only [Bool.or_eq_true, decide_eq_true_eq] at h
  rcases h with ((rfl | rfl) | rfl) | rfl <;> decide

theorem dropWhile_blanks {w : Text} (hw : w.all isSpace = true) (t : Text) :
    (w ++ t).dropWhile isTrimmed = t.dropWhile isTrimmed := by
  rw [List.dropWhile_append_of_pos]
  intro u hu
  exact isTrimmed_of_isSpace (List.all_eq_true.mp hw u hu)

/-- Blanks after a name are taken off. -/
theorem trim_name {n : Name} (h : PlainName n.text) {w : Text} (hw : w.all isSpace = true) :
    trim (n.text ++ w) = n.text := by
  obtain ⟨u, r, hn⟩ := List.exists_cons_of_ne_nil n.ne_nil
  have hu : isTrimmed u = false := h.visible (by rw [hn]; exact List.mem_cons_self)
  have hfront : (n.text ++ w).dropWhile isTrimmed = n.text ++ w := by
    rw [hn, List.cons_append, List.dropWhile_cons_of_neg (by simp [hu])]
  have hback : (n.text ++ w).reverse.dropWhile isTrimmed =
      n.text.reverse.dropWhile isTrimmed := by
    rw [List.reverse_append]
    exact dropWhile_blanks (by simpa using hw) _
  have hself : trim n.text = n.text := trim_eq_self fun v hv => h.visible hv
  unfold trim at hself ⊢
  rw [hfront, hback]
  have hfront' : n.text.dropWhile isTrimmed = n.text := by
    rw [hn, List.dropWhile_cons_of_neg (by simp [hu])]
  rwa [hfront'] at hself

theorem afterLast_none {u : UInt16} {t : Text} (h : u ∉ t) : afterLast u t = t := by
  unfold afterLast
  rw [lastIndexOf_eq_none h]

/-- A round of the reader, by the parts of the attribute that it meets. -/
theorem attributeStep_of_parts {name rest t raw right value rest' : Text} {c e quote e' : UInt16}
    (hrest : rest.dropWhile isTrimmed = c :: t) (hc : ¬ (c = ch '>' ∨ c = ch '/'))
    (hraw : (c :: t).takeWhile (· ≠ ch '=') = raw)
    (hright : (c :: t).dropWhile (· ≠ ch '=') = e :: right)
    (hattr : ¬ (trim raw = [] ∨
      ((trim raw).any fun u => isTrimmed u || u = ch '<' || u = ch '>') = true))
    (hquoted : right.dropWhile isTrimmed = quote :: value) (hquote : isQuote quote = true)
    (hvalue : value.dropWhile (· ≠ quote) = e' :: rest') :
    attributeStep name rest =
      if afterLast (ch ':') (trim raw) = name ∧ ch ':' ∉ trim raw then
        .inl (some (value.takeWhile (· ≠ quote)))
      else .inr rest' := by
  unfold attributeStep
  dsimp only
  rw [hrest]
  dsimp only
  rw [if_neg hc, hright]
  dsimp only
  rw [hraw, if_neg hattr, hquoted]
  dsimp only
  rw [if_pos hquote, hvalue]

/-- One of the attributes that a start tag lists, as the reader meets it. -/
theorem attributeStep_render {a : Attribute} (ha : PlainName a.name.text) {name : Text}
    (hname : ch ':' ∉ name) (rest : Text) :
    attributeStep name (a.render ++ rest) =
      if a.name.text = name then .inl (some a.value) else .inr rest := by
  have hblanks := a.blanks
  rw [List.all_append, List.all_append, Bool.and_eq_true, Bool.and_eq_true] at hblanks
  obtain ⟨⟨hbefore, hleft⟩, hright⟩ := hblanks
  obtain ⟨u, r, hn⟩ := List.exists_cons_of_ne_nil a.name.ne_nil
  have hmem : u ∈ a.name.text := by rw [hn]; exact List.mem_cons_self
  have hu := ha.visible hmem
  obtain ⟨-, hgt, hslash, -, -, -⟩ := ne_of_isNameUnit (a.name.unit hmem)
  have hsign : ∀ v ∈ a.name.text ++ a.left, decide (v ≠ ch '=') = true := by
    intro v hv
    rw [decide_eq_true_eq]
    rcases List.mem_append.mp hv with hv | hv
    · exact (ne_of_isNameUnit (a.name.unit hv)).2.2.2.1
    · rintro rfl
      have := List.all_eq_true.mp hleft _ hv
      exact absurd this (by decide)
  have hnotall : ¬ ((a.name.text.any fun u => isTrimmed u || u = ch '<' || u = ch '>') = true) := by
    rw [List.any_eq_true]
    rintro ⟨v, hv, hbad⟩
    obtain ⟨hlt, hgt, -⟩ := ne_of_isNameUnit (a.name.unit hv)
    simp [ha.visible hv, hlt, hgt] at hbad
  have hquote : isQuote a.quote.unit = true := by cases a.quote <;> decide
  have hquote' : isTrimmed a.quote.unit = false := by cases a.quote <;> decide
  have hvalue : ∀ v ∈ a.value, decide (v ≠ a.quote.unit) = true := by
    intro v hv
    rw [decide_eq_true_eq]
    rintro rfl
    exact a.inside.1 hv
  have hlocal : (afterLast (ch ':') a.name.text = name ∧ ch ':' ∉ a.name.text) ↔
      a.name.text = name := by
    constructor
    · rintro ⟨heq, hcolon⟩
      rwa [afterLast_none hcolon] at heq
    · rintro rfl
      exact ⟨afterLast_none hname, hname⟩
  have hsplit : a.render ++ rest = a.before ++ ((a.name.text ++ a.left) ++ ch '=' ::
      (a.right ++ a.quote.unit :: (a.value ++ a.quote.unit :: rest))) := by
    simp [Attribute.render]
  have hfront : (a.render ++ rest).dropWhile isTrimmed = (a.name.text ++ a.left) ++ ch '=' ::
      (a.right ++ a.quote.unit :: (a.value ++ a.quote.unit :: rest)) := by
    rw [hsplit, dropWhile_blanks hbefore, hn, List.cons_append, List.cons_append,
      List.dropWhile_cons_of_neg (by simp [hu])]
  obtain ⟨t, ht⟩ : ∃ t, (a.name.text ++ a.left) ++ ch '=' ::
      (a.right ++ a.quote.unit :: (a.value ++ a.quote.unit :: rest)) = u :: t := by
    rw [hn]
    exact ⟨_, rfl⟩
  have hraw : (u :: t).takeWhile (· ≠ ch '=') = a.name.text ++ a.left := by
    rw [← ht, List.takeWhile_append_of_pos hsign, List.takeWhile_cons_of_neg (by simp),
      List.append_nil]
  have hrest : (u :: t).dropWhile (· ≠ ch '=') =
      ch '=' :: (a.right ++ a.quote.unit :: (a.value ++ a.quote.unit :: rest)) := by
    rw [← ht, List.dropWhile_append_of_pos hsign, List.dropWhile_cons_of_neg (by simp)]
  have htrim := trim_name ha hleft
  have hquoted : (a.right ++ a.quote.unit :: (a.value ++ a.quote.unit :: rest)).dropWhile
      isTrimmed = a.quote.unit :: (a.value ++ a.quote.unit :: rest) := by
    rw [dropWhile_blanks hright, List.dropWhile_cons_of_neg (by simp [hquote'])]
  have hafter : (a.value ++ a.quote.unit :: rest).dropWhile (· ≠ a.quote.unit) =
      a.quote.unit :: rest := by
    rw [List.dropWhile_append_of_pos hvalue, List.dropWhile_cons_of_neg (by simp)]
  rw [attributeStep_of_parts (hfront.trans ht) (by simp [hgt, hslash]) hraw hrest
    (by rw [htrim, not_or]; exact ⟨a.name.ne_nil, hnotall⟩) hquoted hquote hafter, htrim,
    List.takeWhile_append_of_pos hvalue, List.takeWhile_cons_of_neg (by simp), List.append_nil]
  simp only [hlocal]

/-- At the end of a start tag the reader stops. -/
theorem attributeStep_end {w : Text} (hw : w.all isSpace = true) {c : UInt16}
    (hc : c = ch '>' ∨ c = ch '/') (name rest : Text) :
    attributeStep name (w ++ c :: rest) = .inl none := by
  have hc' : isTrimmed c = false := by rcases hc with rfl | rfl <;> decide
  unfold attributeStep
  dsimp only
  rw [dropWhile_blanks hw, List.dropWhile_cons_of_neg (by simp [hc'])]
  dsimp only
  rw [if_pos hc]

/-- The reader finds the attribute that the tag has. -/
theorem attributeIn_inner {t : StartTag} (h : ∀ a ∈ t.attributes, PlainName a.name.text)
    {name : Text} (hname : ch ':' ∉ name) (more : Text) :
    attributeIn (t.inner ++ ch '>' :: more) name = (t.attribute? name).map (·.value) := by
  have hend : (attributeLoop name).run
      ((t.blank ++ if t.closed then [ch '/'] else []) ++ ch '>' :: more) = none := by
    apply Loop.run_of_inl
    cases t.closed with
    | true =>
      rw [if_pos rfl, List.append_assoc]
      exact attributeStep_end t.blanks (.inr rfl) name _
    | false =>
      rw [if_neg Bool.false_ne_true, List.append_nil]
      exact attributeStep_end t.blanks (.inl rfl) name _
  unfold attributeIn StartTag.inner StartTag.attribute?
  rw [List.append_assoc]
  generalize (t.blank ++ if t.closed then [ch '/'] else []) ++ ch '>' :: more = last at hend ⊢
  generalize t.attributes = as at h ⊢
  induction as with
  | nil => exact hend
  | cons a as ih =>
    obtain ⟨ha, has⟩ := List.forall_mem_cons.mp h
    have hstep := attributeStep_render ha hname (as.flatMap Attribute.render ++ last)
    rw [List.flatMap_cons, List.append_assoc]
    by_cases heq : a.name.text = name
    · rw [if_pos heq] at hstep
      rw [List.find?_cons_of_pos (by simp [heq]), Option.map_some]
      exact Loop.run_of_inl _ hstep
    · rw [if_neg heq] at hstep
      rw [List.find?_cons_of_neg (by simp [heq]), ← ih has]
      exact Loop.run_of_inr _ hstep

/-- What the search says of a start tag: its method, with the algorithm as it stands between
the quotes. -/
def methodOfTag (t : StartTag) : Option (Method × Option Text) :=
  (methodOf t.name.text).map fun m => (m, (t.attribute? (js "Algorithm")).map (·.value))

/-- The search reads the names of the tag as a parser does. -/
structure PlainTag (t : StartTag) : Prop where
  name : PlainName t.name.text
  attributes : methodOf t.name.text ≠ none → ∀ a ∈ t.attributes, PlainName a.name.text

theorem isTagUnit_blank {u : UInt16} (h : isSpace u = true) : isTagUnit u = false := by
  unfold isTagUnit
  rw [isTrimmed_of_isSpace h]
  rfl

theorem PlainName.tagUnit {n : Name} (h : PlainName n.text) {u : UInt16} (hu : u ∈ n.text) :
    isTagUnit u = true := by
  obtain ⟨-, hgt, hslash, -, hbang, hquestion⟩ := ne_of_isNameUnit (n.unit hu)
  simp [isTagUnit, h.visible hu, hgt, hslash, hbang, hquestion]

/-- What follows a name in a tag ends it. -/
theorem inner_starts (t : StartTag) (more : Text) :
    ∃ u r, t.inner ++ ch '>' :: more = u :: r ∧ isTagUnit u = false := by
  unfold StartTag.inner
  cases hattributes : t.attributes with
  | nil =>
    cases hblank : t.blank with
    | nil =>
      cases t.closed with
      | true => exact ⟨_, _, rfl, by decide⟩
      | false => exact ⟨_, _, rfl, by decide⟩
    | cons u w =>
      have hu := List.all_eq_true.mp t.blanks u (by rw [hblank]; exact List.mem_cons_self)
      exact ⟨_, _, rfl, isTagUnit_blank hu⟩
  | cons a as =>
    obtain ⟨u, w, hbefore⟩ := List.exists_cons_of_ne_nil a.apart
    have hu := List.all_eq_true.mp a.blanks u (by rw [hbefore]; exact List.mem_cons_self)
    refine ⟨u, ?_, ?_, isTagUnit_blank hu⟩
    rotate_left
    · rw [List.flatMap_cons, Attribute.render, hbefore]
      rfl

/-- No tag opens inside a tag. -/
theorem lt_notMem_inner (t : StartTag) : ch '<' ∉ t.inner := by
  have hspace {w : Text} (hw : w.all isSpace = true) : ch '<' ∉ w := fun h =>
    absurd (List.all_eq_true.mp hw _ h) (by decide)
  have hclosed : ch '<' ∉ (if t.closed then [ch '/'] else []) := by
    cases t.closed <;> decide
  have hattribute (a : Attribute) : ch '<' ∉ a.render := by
    have hblanks := a.blanks
    rw [List.all_append, List.all_append, Bool.and_eq_true, Bool.and_eq_true] at hblanks
    have hname : ch '<' ∉ a.name.text := fun h => (ne_of_isNameUnit (a.name.unit h)).1 rfl
    have hquote : ch '<' ≠ a.quote.unit := by cases a.quote <;> decide
    have hsign : ch '<' ≠ ch '=' := by decide
    simp only [Attribute.render, List.mem_append, List.mem_cons, List.not_mem_nil, or_false, not_or]
    exact ⟨hspace hblanks.1.1, hname, hspace hblanks.1.2, hsign, hspace hblanks.2, hquote,
      a.inside.2, hquote⟩
  unfold StartTag.inner
  rw [List.mem_append, List.mem_append, List.mem_flatMap, not_or, not_or]
  refine ⟨?_, hspace t.blanks, hclosed⟩
  rintro ⟨a, -, ha⟩
  exact hattribute a ha

/-- The search finds the method of a start tag. -/
theorem methodsBefore_start {t : StartTag} (h : PlainTag t) (more : Text) :
    methodsBefore [] (t.render ++ more) = (methodOfTag t).toList ++ methodsBefore [] more := by
  obtain ⟨u, r, hinner, hu⟩ := inner_starts t more
  have hname : ∀ v ∈ t.name.text, isTagUnit v = true := fun v hv => h.name.tagUnit hv
  have hrender : t.render ++ more = ch '<' :: (t.name.text ++ (t.inner ++ ch '>' :: more)) := by
    simp [StartTag.render]
  have htag : nextTag (t.render ++ more) = some (t.name.text, t.inner ++ ch '>' :: more) := by
    have htake : (t.name.text ++ (t.inner ++ ch '>' :: more)).takeWhile isTagUnit =
        t.name.text := by
      rw [hinner, List.takeWhile_append_of_pos hname, List.takeWhile_cons_of_neg (by simp [hu]),
        List.append_nil]
    have hdrop : (t.name.text ++ (t.inner ++ ch '>' :: more)).dropWhile isTagUnit =
        t.inner ++ ch '>' :: more := by
      rw [hinner, List.dropWhile_append_of_pos hname, List.dropWhile_cons_of_neg (by simp [hu])]
    rw [hrender, nextTag, htake, hdrop, if_pos ⟨rfl, t.name.ne_nil⟩]
  have hlast : ch '<' ∉ t.inner ++ [ch '>'] := by
    rw [List.mem_append, not_or]
    exact ⟨lt_notMem_inner t, by decide⟩
  have hmore : methodsBefore [] (t.inner ++ ch '>' :: more) = methodsBefore [] more := by
    rw [← methodsBefore_free hlast [] more, List.append_assoc]
    rfl
  rw [methodsBefore_of_some htag, hmore, List.append_nil]
  unfold methodOfTag
  cases hm : methodOf t.name.text with
  | none => rfl
  | some m =>
    rw [Option.map_some, Option.map_some,
      attributeIn_inner (h.attributes (by rw [hm]; exact Option.some_ne_none m)) (by decide)]

/-- An end tag has no method. -/
theorem methodsBefore_stop (t : EndTag) (more : Text) :
    methodsBefore [] (t.render ++ more) = methodsBefore [] more := by
  have hspace : ch '<' ∉ t.blank := fun h =>
    absurd (List.all_eq_true.mp t.blanks _ h) (by decide)
  have hname : ch '<' ∉ t.name.text := fun h => (ne_of_isNameUnit (t.name.unit h)).1 rfl
  have hfree : ch '<' ∉ ch '/' :: (t.name.text ++ (t.blank ++ [ch '>'])) := by
    have hslash : ch '<' ≠ ch '/' := by decide
    have hgt : ch '<' ≠ ch '>' := by decide
    simp [hspace, hname, hslash, hgt]
  have hslash : isTagUnit (ch '/') = false := by decide
  have htag : nextTag (t.render ++ more) =
      nextTag (ch '/' :: (t.name.text ++ (t.blank ++ [ch '>'])) ++ more) := by
    unfold EndTag.render
    rw [List.cons_append, List.cons_append, nextTag, List.takeWhile_cons_of_neg (by simp [hslash]),
      if_neg (by simp)]
  rw [methodsBefore_congr htag, methodsBefore_free hfree]

/-! ## Documents -/

/-- What the search takes for methods in comments, character data and instructions; the
reading of an algorithm may go on behind them. -/
def hidden : Document → List (Method × Option Text)
  | [] => []
  | .comment t h :: d =>
    methodsBefore (Document.render d) (Piece.comment t h).render ++ hidden d
  | .cdata t h :: d =>
    methodsBefore (Document.render d) (Piece.cdata t h).render ++ hidden d
  | .instruction t h :: d =>
    methodsBefore (Document.render d) (Piece.instruction t h).render ++ hidden d
  | _ :: d => hidden d

/-- What the search finds of the elements. -/
def shown (d : Document) : List (Method × Option Text) := d.elements.filterMap methodOfTag

theorem render_cons (p : Piece) (d : Document) :
    Document.render (p :: d) = p.render ++ Document.render d := rfl

/-- A piece that ends like a tag keeps its methods for itself. -/
theorem methodsBefore_piece {piece t : Text} (h : piece = t ++ [ch '>']) (more : Text) :
    methodsBefore [] (piece ++ more) = methodsBefore more piece ++ methodsBefore [] more := by
  rw [h, List.append_assoc]
  refine (methodsBefore_closed t more []).trans ?_
  rw [List.append_nil]

/-- The search finds the methods of the elements and the hidden ones, and no others. -/
theorem mem_methodsBefore {d : Document} (h : ∀ t ∈ d.elements, PlainTag t)
    (m : Method × Option Text) :
    m ∈ methodsBefore [] d.render ↔ m ∈ hidden d ∨ m ∈ shown d := by
  induction d with
  | nil =>
    have hnone : methodsBefore [] (Document.render []) = [] := methodsBefore_of_none rfl []
    simp [hnone, hidden, shown, Document.elements]
  | cons p d ih =>
    rw [render_cons]
    cases p with
    | text t hfree =>
      rw [Piece.render, methodsBefore_free hfree]
      exact ih h
    | comment t hmisses =>
      have hend : (Piece.comment t hmisses).render = (js "<!--" ++ t ++ js "--") ++ [ch '>'] := by
        rw [List.append_assoc _ (js "--")]
        rfl
      rw [methodsBefore_piece hend, List.mem_append, hidden, List.mem_append, or_assoc]
      exact or_congr_right (ih h)
    | cdata t hmisses =>
      have hend : (Piece.cdata t hmisses).render =
          (js "<![CDATA[" ++ t ++ js "]]") ++ [ch '>'] := by
        rw [List.append_assoc _ (js "]]")]
        rfl
      rw [methodsBefore_piece hend, List.mem_append, hidden, List.mem_append, or_assoc]
      exact or_congr_right (ih h)
    | instruction t hmisses =>
      have hend : (Piece.instruction t hmisses).render = (js "<?" ++ t ++ js "?") ++ [ch '>'] := by
        rw [List.append_assoc _ (js "?")]
        rfl
      rw [methodsBefore_piece hend, List.mem_append, hidden, List.mem_append, or_assoc]
      exact or_congr_right (ih h)
    | start t =>
      obtain ⟨ht, hrest⟩ := List.forall_mem_cons.mp h
      have hshown : shown (.start t :: d) = (methodOfTag t).toList ++ shown d := by
        have helements : Document.elements (.start t :: d) = t :: Document.elements d := rfl
        unfold shown
        rw [helements, List.filterMap_cons]
        cases methodOfTag t <;> rfl
      rw [Piece.render, methodsBefore_start ht, hshown, List.mem_append, List.mem_append, ih hrest,
        or_left_comm]
      rfl
    | stop t =>
      rw [Piece.render, methodsBefore_stop]
      exact ih h

/-! ## What a parser sees -/

/-- The element has a local name, under any prefix. -/
def Named (name : Text) (t : StartTag) : Prop :=
  t.name.text = name ∨ ∃ front, t.name.text = front ++ ch ':' :: name

/-- The element has an algorithm of a list, in an attribute without a prefix. -/
def HasAlgorithm (algorithms : List Text) (t : StartTag) : Prop :=
  ∃ a ∈ t.attributes, a.name.text = js "Algorithm" ∧ normalizeValue a.value ∈ algorithms

/-- The document has a signature. -/
def Signed (d : Document) : Prop := ∃ t ∈ d.elements, Named (js "SignatureMethod") t

/-- All signatures and digests of the document are made with algorithms of the lists. -/
def OnlyListed (d : Document) : Prop :=
  ∀ t ∈ d.elements, (Named (js "SignatureMethod") t → HasAlgorithm signatureAlgorithms t) ∧
    (Named (js "DigestMethod") t → HasAlgorithm digestAlgorithms t)

theorem named_iff {name : Text} (hname : ch ':' ∉ name) (t : StartTag) :
    Named name t ↔ afterLast (ch ':') t.name.text = name := by
  constructor
  · rintro (heq | ⟨front, heq⟩)
    · rw [heq, afterLast_none hname]
    · rw [heq, afterLast_append front hname]
  · intro heq
    by_cases hcolon : ch ':' ∈ t.name.text
    · obtain ⟨back, front, hsplit, hback⟩ :=
        List.eq_append_cons_of_mem (List.mem_reverse.mpr hcolon)
      have hname' : t.name.text = front.reverse ++ ch ':' :: back.reverse := by
        rw [← List.reverse_reverse t.name.text, hsplit]
        simp
      rw [hname', afterLast_append _ (by simpa using hback)] at heq
      exact .inr ⟨front.reverse, by rw [hname', heq]⟩
    · rw [afterLast_none hcolon] at heq
      exact .inl heq

theorem signature_iff (t : StartTag) :
    Named (js "SignatureMethod") t ↔ methodOf t.name.text = some .signature := by
  rw [named_iff (by decide)]
  unfold methodOf
  split_ifs with h h' <;> simp [h]

theorem digest_iff (t : StartTag) :
    Named (js "DigestMethod") t ↔ methodOf t.name.text = some .digest := by
  have hne : js "SignatureMethod" ≠ js "DigestMethod" := by decide
  rw [named_iff (by decide)]
  unfold methodOf
  split_ifs with h h'
  · simp [h, hne]
  · simp [h']
  · simp [h']

theorem signed_iff (d : Document) : Signed d ↔ ∃ m ∈ shown d, m.1 = .signature := by
  unfold Signed shown
  simp only [signature_iff, List.mem_filterMap]
  constructor
  · rintro ⟨t, ht, hm⟩
    exact ⟨_, ⟨t, ht, by rw [methodOfTag, hm]; rfl⟩, rfl⟩
  · rintro ⟨m, ⟨t, ht, hm⟩, hkind⟩
    refine ⟨t, ht, ?_⟩
    obtain ⟨m', hm', rfl⟩ := Option.map_eq_some_iff.mp hm
    rw [hm']
    exact congrArg some hkind

/-- No algorithm of the lists is written with a reference or a blank. -/
theorem normalizeValue_listed {m : Method} {alg : Text} (h : alg ∈ m.algorithms) :
    normalizeValue alg = alg := by
  have hall : ∀ m : Method, m.algorithms.all
      (fun alg => alg.all fun u => u ≠ ch '&' && !isSpace u) = true := by
    intro m
    cases m with
    | signature =>
      change signatureAlgorithms.all _ = true
      unfold signatureAlgorithms
      repeat rw [js_ofList]
      decide +kernel
    | digest =>
      change digestAlgorithms.all _ = true
      unfold digestAlgorithms
      repeat rw [js_ofList]
      decide +kernel
  exact normalizeValue_eq (List.all_eq_true.mp (hall m) alg h)

/-- Where the methods of the elements pass, a parser sees listed algorithms only. -/
theorem onlyListed_of_passes {d : Document} (h : ∀ m ∈ shown d, Passes m) : OnlyListed d := by
  have hlisted {t : StartTag} (ht : t ∈ d.elements) {m : Method}
      (hm : methodOf t.name.text = some m) : HasAlgorithm m.algorithms t := by
    have hmem : (m, (t.attribute? (js "Algorithm")).map (·.value)) ∈ shown d := by
      refine List.mem_filterMap.mpr ⟨t, ht, ?_⟩
      rw [methodOfTag, hm]
      rfl
    obtain ⟨alg, halg, hin⟩ := h _ hmem
    obtain ⟨a, ha, rfl⟩ := Option.map_eq_some_iff.mp halg
    refine ⟨a, List.mem_of_find?_eq_some ha, ?_, ?_⟩
    · simpa using List.find?_some ha
    · rwa [normalizeValue_listed hin]
  intro t ht
  rw [signature_iff, digest_iff]
  exact ⟨fun hm => hlisted ht hm, fun hm => hlisted ht hm⟩

def rootName : Name := ⟨js "a", by decide, by decide⟩

def signatureName : Name := ⟨js "SignatureMethod", by decide, by decide⟩

/-- A name whose prefix ends in a character that a script takes for a blank. -/
def maskedName : Name := ⟨ch 'x' :: 0xfeff :: js ":SignatureMethod", by decide, by decide⟩

def rsaSha256 : Text := js "http://www.w3.org/2001/04/xmldsig-more#rsa-sha256"

def rsaSha1 : Text := js "http://www.w3.org/2000/09/xmldsig#rsa-sha1"

/-- An empty element of a method. -/
def methodTag (name : Name) (alg : Text) (h : Quote.double.unit ∉ alg ∧ ch '<' ∉ alg) :
    StartTag where
  name
  attributes := [⟨[ch ' '], ⟨js "Algorithm", by decide, by decide⟩, [], [], .double, alg,
    by decide, by decide, h⟩]
  blank := []
  closed := true
  blanks := rfl
  distinct := by simp

def rootTag : StartTag := ⟨rootName, [], [], false, rfl, by simp⟩

/-- A document with the pieces in its root. -/
def inRoot (pieces : Document) : Document :=
  .start rootTag :: (pieces ++ [.stop ⟨rootName, [], rfl⟩])

/-- A document with one signature. -/
def signedDocument : Document := inRoot [.start (methodTag signatureName rsaSha256 (by decide))]

theorem plainName_ascii {t : Text} (h : (t.all fun u => u.toNat ≤ 126) = true) : PlainName t := by
  intro u hu
  have hle : u.toNat ≤ 126 := by simpa using List.all_eq_true.mp h u hu
  omega

/-- A document without a signature whose comment looks like one. -/
def commentedDocument : Document :=
  inRoot [.comment (methodTag signatureName rsaSha256 (by decide)).render
    (by unfold Misses; decide +kernel)]

/-- A document with a signature of a listed algorithm and another one under a prefix. -/
def maskedDocument : Document :=
  inRoot [.start (methodTag signatureName rsaSha256 (by decide)),
    .start (methodTag maskedName rsaSha1 (by decide))]

end Klick.Saml
