-- The comparison of two versions of a text (`lib/documents/diff.ts`) and its display
-- (`compactDiff` and `pairChanges` of `lib/documents/trail.ts`, `linesDiff` of
-- `lib/documents/content-diff.ts`): lines that stay, come and go, with gaps for what stays.
import Klick.Binary64
import Klick.Coercion
import Klick.EditScript

open Js EditScript

namespace Klick.Diff

abbrev DiffLine := Edit Text

/-! ## The difference of two lists of lines -/

/-- `MAX_CELLS` -/
def maxCells : ℕ := 4000000

def lcs (a b : List Text) : List DiffLine :=
  if maxCells < a.length * b.length then a.map .del ++ b.map .add else walk a b

/-- The lines that occur once in `a` and once in `b`, with their places. The map of the source
has them in the order of `a`, and its sort leaves them so. -/
def uniquePairs (a b : List Text) : List (ℕ × ℕ) :=
  a.zipIdx.filterMap fun (line, i) =>
    if a.count line = 1 ∧ b.count line = 1 then some (i, b.idxOf line) else none

/-- A tail with what `prev` leads to from it, the latest pair first. -/
abbrev Chain := List (ℕ × ℕ)

/-- The first of the tails whose place in `b` is not before `bj`, between `lo` and `hi`. -/
def searchTails (tails : List Chain) (bj : ℕ) : ℕ → ℕ → ℕ → ℕ
  | 0, lo, _ => lo
  | fuel + 1, lo, hi =>
    if lo < hi then
      let mid := (lo + hi) / 2
      if ((tails.getD mid []).head?.any fun p => p.2 < bj) then searchTails tails bj fuel (mid + 1) hi
      else searchTails tails bj fuel lo mid
    else lo

/-- One pair more: it is a tail, behind the tail before its place. -/
def placePair (tails : List Chain) (p : ℕ × ℕ) : List Chain :=
  let lo := searchTails tails p.2 (tails.length + 1) 0 tails.length
  let prev := if 0 < lo then tails.getD (lo - 1) [] else []
  tails.take lo ++ (p :: prev) :: tails.drop (lo + 1)

def anchors (a b : List Text) : List (ℕ × ℕ) :=
  (((uniquePairs a b).foldl placePair []).getLastD []).reverse

/-- `while (start < a.length && start < b.length && a[start] === b[start]) start++` -/
def commonLength : List Text → List Text → ℕ
  | x :: xs, y :: ys => if x = y then commonLength xs ys + 1 else 0
  | _, _ => 0

/-- The number of common lines at the beginning, and at the end of what is left. -/
def commonEnds (a b : List Text) : ℕ × ℕ :=
  let start := commonLength a b
  (start, commonLength (a.drop start).reverse (b.drop start).reverse)

/-- `midA` or `midB` -/
def middle (ends : ℕ × ℕ) (a : List Text) : List Text :=
  (a.drop ends.1).take (a.length - ends.2 - ends.1)

/-- The pieces between the anchors, each compared on its own. -/
def between (rec : List Text → List Text → List DiffLine) (a b : List Text) :
    ℕ → ℕ → List (ℕ × ℕ) → List DiffLine
  | ai, bi, [] => rec (a.drop ai) (b.drop bi)
  | ai, bi, (x, y) :: rest =>
    rec ((a.take x).drop ai) ((b.take y).drop bi) ++ (a[x]?.toList.map .same ++
      between rec a b (x + 1) (y + 1) rest)

/-- The middles: by the table if it is not too large, else piece by piece. -/
def diffMiddle (rec : List Text → List Text → List DiffLine) (midA midB : List Text) :
    List DiffLine :=
  if midA.length * midB.length ≤ maxCells then lcs midA midB
  else
    match anchors midA midB with
    | [] => lcs midA midB
    | anchor => between rec midA midB 0 0 anchor

/-- `diffRange`; a fuel above the number of lines of `a` is enough, as every piece has fewer. -/
def diffRange : ℕ → List Text → List Text → List DiffLine
  | 0, _, _ => []
  | fuel + 1, a, b =>
    let ends := commonEnds a b
    (a.take ends.1).map .same ++ (diffMiddle (diffRange fuel) (middle ends a) (middle ends b) ++
      (a.drop (a.length - ends.2)).map .same)

/-- `diffRange` on whole lists -/
def diffLists (a b : List Text) : List DiffLine := diffRange (a.length + 1) a b

/-- `text.split("\n")` -/
def lines (t : Text) : List Text := t.splitOn (ch '\n')

def diffLines (before after : Text) : List DiffLine := diffLists (lines before) (lines after)

/-! ## The difference of two lines -/

abbrev WordPart := Edit Text

/-- `MAX_WORD_CELLS` -/
def maxWordCells : ℕ := 250000

/-- `t.match(/\s+|\S+/g) ?? []` -/
def wordParts (t : Text) : List Text := t.splitBy fun u v => isTrimmed u == isTrimmed v

/-- A part behind the parts so far, the latest first; parts of one kind are joined. -/
def pushPart : List WordPart → DiffLine → List WordPart
  | .same t :: out, .same u => .same (t ++ u) :: out
  | .add t :: out, .add u => .add (t ++ u) :: out
  | .del t :: out, .del u => .del (t ++ u) :: out
  | out, l => l :: out

def diffWords (before after : Text) : Option (List WordPart) :=
  let a := wordParts before
  let b := wordParts after
  if maxWordCells < a.length * b.length then none
  else some ((diffLists a b).foldl pushPart []).reverse

def Edit.text {α : Type} : Edit α → α
  | .same t => t
  | .add t => t
  | .del t => t

/-- `text.split(/\s+/).filter(Boolean).length` -/
def wordCount (t : Text) : ℕ :=
  (wordParts t).countP fun run => run.head?.any fun u => !isTrimmed u

/-- `wordSimilarity`: the share of equal words, a quotient of two numbers of JavaScript. -/
def wordSimilarity (parts : List WordPart) : ℚ :=
  let same := (parts.map fun p => if p.isSame then 2 * wordCount (Edit.text p) else 0).sum
  let total := (parts.map fun p =>
    if p.isSame then 2 * wordCount (Edit.text p) else wordCount (Edit.text p)).sum
  if total = 0 then 1 else fl ((same : ℚ) / total)

/-! ## The display -/

inductive CompactLine
  | line (l : DiffLine)
  | gap (skipped : ℕ)
deriving DecidableEq, Repr

/-- `keep[i]`: no further than `context` from a line that came or went. -/
def keeps (lines : List DiffLine) (context i : ℕ) : Bool :=
  lines.zipIdx.any fun (l, j) => !l.isSame && (j ≤ i + context && i ≤ j + context)

/-- The loop of `compactDiff` from place `i` on; `shown` tells that something is out. -/
def compactFrom (keep : ℕ → Bool) : ℕ → ℕ → Bool → List DiffLine → List CompactLine
  | _, skipped, shown, [] => if 0 < skipped ∧ shown then [.gap skipped] else []
  | i, skipped, shown, l :: rest =>
    if keep i then
      (if 0 < skipped then [.gap skipped] else []) ++ .line l :: compactFrom keep (i + 1) 0 true rest
    else compactFrom keep (i + 1) (skipped + 1) shown rest

def compactDiff (lines : List DiffLine) (context : ℕ) : List CompactLine :=
  compactFrom (keeps lines context) 0 0 false lines

inductive DisplayLine
  | line (l : DiffLine)
  | gap (skipped : ℕ)
  | change (parts : List WordPart)
deriving DecidableEq, Repr

def CompactLine.display : CompactLine → DisplayLine
  | .line l => .line l
  | .gap skipped => .gap skipped

/-- `PAIR_MIN` -/
def pairMin : ℚ := 1 / 2

/-- `PAIR_WINDOW` -/
def pairWindow : ℕ := 3

/-- The first of some added lines that is like a removed one, with its place. -/
def findPair (d : Text) : List Text → Option (ℕ × List WordPart)
  | [] => none
  | t :: adds =>
    match (diffWords d t).filter fun parts => pairMin ≤ wordSimilarity parts with
    | some parts => some (0, parts)
    | none => (findPair d adds).map fun (k, parts) => (k + 1, parts)

/-- Removed lines and the added ones behind them, from `adds[j]` on. -/
def pairBlock : List Text → List Text → List DisplayLine
  | [], adds => adds.map fun t => .line (.add t)
  | d :: dels, adds =>
    match findPair d (adds.take pairWindow) with
    | none => .line (.del d) :: pairBlock dels adds
    | some (k, parts) =>
      (adds.take k).map (fun t => .line (.add t)) ++
        .change parts :: pairBlock dels (adds.drop (k + 1))

/-- The removed lines at the beginning, and what is behind them. -/
def spanDels : List CompactLine → List Text × List CompactLine
  | .line (.del t) :: rest => (t :: (spanDels rest).1, (spanDels rest).2)
  | rest => ([], rest)

def spanAdds : List CompactLine → List Text × List CompactLine
  | .line (.add t) :: rest => (t :: (spanAdds rest).1, (spanAdds rest).2)
  | rest => ([], rest)

theorem length_spanDels (ls : List CompactLine) : (spanDels ls).2.length ≤ ls.length := by
  fun_induction spanDels ls with
  | case1 t rest ih => exact ih.trans (Nat.le_succ _)
  | case2 rest _ => exact le_rfl

theorem length_spanAdds (ls : List CompactLine) : (spanAdds ls).2.length ≤ ls.length := by
  fun_induction spanAdds ls with
  | case1 t rest ih => exact ih.trans (Nat.le_succ _)
  | case2 rest _ => exact le_rfl

def pairChanges : List CompactLine → List DisplayLine
  | [] => []
  | .line (.del t) :: rest =>
    pairBlock (t :: (spanDels rest).1) (spanAdds (spanDels rest).2).1 ++
      pairChanges (spanAdds (spanDels rest).2).2
  | l :: rest => l.display :: pairChanges rest
termination_by ls => ls.length
decreasing_by
  · have := length_spanDels rest
    have := length_spanAdds (spanDels rest).2
    rw [List.length_cons]
    omega
  · simp

structure LinesDiff where
  lines : List DisplayLine
  added : ℕ
  removed : ℕ
deriving DecidableEq

/-- `linesDiff`, with the counts of `diffStat` -/
def linesDiff (before after : Text) (context : ℕ) : Option LinesDiff :=
  let lines := diffLines before after
  let added := lines.countP fun l => match l with | .add _ => true | _ => false
  let removed := lines.countP fun l => match l with | .del _ => true | _ => false
  if added + removed = 0 then none
  else some ⟨pairChanges (compactDiff lines context), added, removed⟩

end Klick.Diff
