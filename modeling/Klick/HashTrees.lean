-- Roots that are hashed from leaves, two by two, in trees of any shape: what a path from a leaf to
-- the root shows, when a hash tells apart what was hashed.
import Mathlib.Data.List.Basic
import Mathlib.Data.Set.Basic

namespace HashTrees

variable {δ : Type}

/-- On which side of the value so far the other half stands. -/
inductive Side
  | left | right
deriving DecidableEq

/-- One step of a path: the other half of a node. -/
structure Step (δ : Type) where
  side : Side
  hash : δ
deriving DecidableEq

section Node

variable (node : δ → δ → δ)

/-- The node above a value. -/
def Step.apply (s : Step δ) (a : δ) : δ :=
  match s.side with
  | .right => node a s.hash
  | .left => node s.hash a

/-- The value at the end of a path. -/
def climb (leaf : δ) (path : List (Step δ)) : δ := path.foldl (fun a s => s.apply node a) leaf

/-- The values on a path, each with the step that takes it further. -/
def climbs (leaf : δ) : List (Step δ) → List (δ × Step δ)
  | [] => []
  | s :: path => (leaf, s) :: climbs (s.apply node leaf) path

/-- A root is hashed from leaves, and the two halves of each of its nodes are in a set. -/
inductive Built (halves : Set (δ × δ)) : List δ → δ → Prop
  | leaf (v : δ) : Built halves [v] v
  | node {ls rs : List δ} {l r : δ} (h : (l, r) ∈ halves) (left : Built halves ls l)
      (right : Built halves rs r) : Built halves (ls ++ rs) (node l r)

end Node

variable {node : δ → δ → δ}

theorem climb_concat (leaf : δ) (path : List (Step δ)) (s : Step δ) :
    climb node leaf (path ++ [s]) = s.apply node (climb node leaf path) := by
  simp [climb]

theorem climb_append (leaf : δ) (path rest : List (Step δ)) :
    climb node leaf (path ++ rest) = climb node (climb node leaf path) rest := by
  simp [climb]

theorem climbs_concat (leaf : δ) (path : List (Step δ)) (s : Step δ) :
    climbs node leaf (path ++ [s]) = climbs node leaf path ++ [(climb node leaf path, s)] := by
  induction path generalizing leaf with
  | nil => rfl
  | cons t path ih => exact congrArg _ (ih _)

theorem Built.mono {halves more : Set (δ × δ)} (h : halves ⊆ more) {leaves : List δ} {root : δ}
    (hb : Built node halves leaves root) : Built node more leaves root := by
  induction hb with
  | leaf v => exact .leaf v
  | node hmem _ _ ihl ihr => exact .node (h hmem) ihl ihr

/-- What a property of the leaves and of every node makes of the root. -/
theorem Built.root_of {halves : Set (δ × δ)} {P : δ → Prop} (hnode : ∀ l r, P (node l r))
    {leaves : List δ} {root : δ} (hb : Built node halves leaves root) (hleaves : ∀ v ∈ leaves, P v) :
    P root := by
  cases hb with
  | leaf => exact hleaves root List.mem_cons_self
  | node => exact hnode _ _

/-- A property of the leaves and of every node holds of the halves as well. -/
theorem Built.with {halves : Set (δ × δ)} {P : δ → Prop} (hnode : ∀ l r, P (node l r))
    {leaves : List δ} {root : δ} (hb : Built node halves leaves root) (hleaves : ∀ v ∈ leaves, P v) :
    Built node {p | p ∈ halves ∧ P p.1 ∧ P p.2} leaves root := by
  induction hb with
  | leaf v => exact .leaf v
  | @node ls rs l r hmem hl hr ihl ihr =>
    have hls : ∀ v ∈ ls, P v := fun v hv => hleaves v (List.mem_append_left _ hv)
    have hrs : ∀ v ∈ rs, P v := fun v hv => hleaves v (List.mem_append_right _ hv)
    exact .node ⟨hmem, hl.root_of hnode hls, hr.root_of hnode hrs⟩ (ihl hls) (ihr hrs)

/-- Paths with the same steps to one root begin at one leaf, when the nodes on them have one half
for each other half. -/
theorem climb_injective {leaf other : δ} {path : List (Step δ)}
    (hstep : ∀ a b s, (a, s) ∈ climbs node leaf path → (b, s) ∈ climbs node other path →
      s.apply node a = s.apply node b → a = b)
    (h : climb node leaf path = climb node other path) : leaf = other := by
  induction path generalizing leaf other with
  | nil => exact h
  | cons s path ih =>
    apply hstep leaf other s List.mem_cons_self List.mem_cons_self
    apply ih (fun a b t ha hb => hstep a b t (List.mem_cons_of_mem _ ha)
      (List.mem_cons_of_mem _ hb))
    exact h

/-- **A path to the root of a tree begins at a leaf of it**, when a node of the path that is a node
of the tree has the half of the tree on it, and no node of the path is a leaf of the tree. -/
theorem Built.mem_of_climb {halves : Set (δ × δ)} {leaves : List δ} {root : δ}
    (hb : Built node halves leaves root) {leaf : δ} {path : List (Step δ)}
    (hhalf : ∀ l r, (l, r) ∈ halves → ∀ a s, (a, s) ∈ climbs node leaf path →
      s.apply node a = node l r → a = match s.side with
        | .right => l
        | .left => r)
    (hleaf : ∀ v ∈ leaves, ∀ a s, (a, s) ∈ climbs node leaf path → s.apply node a ≠ v)
    (hnode : ∀ l r, (l, r) ∈ halves → leaf ≠ node l r)
    (hroot : climb node leaf path = root) : leaf ∈ leaves := by
  induction hb generalizing path with
  | leaf v =>
    rcases List.eq_nil_or_concat' path with rfl | ⟨path, s, rfl⟩
    · exact List.mem_singleton.mpr hroot
    · rw [climb_concat] at hroot
      refine absurd hroot (hleaf v List.mem_cons_self _ s ?_)
      rw [climbs_concat]
      exact List.mem_append_right _ List.mem_cons_self
  | @node ls rs l r hmem _ _ ihl ihr =>
    rcases List.eq_nil_or_concat' path with rfl | ⟨path, s, rfl⟩
    · exact absurd hroot (hnode l r hmem)
    · rw [climb_concat] at hroot
      rw [climbs_concat] at hhalf hleaf
      have hlast := hhalf l r hmem _ s (List.mem_append_right _ List.mem_cons_self) hroot
      have hhalf' := fun l r h a s hs => hhalf l r h a s (List.mem_append_left _ hs)
      cases hside : s.side with
      | right =>
        rw [hside] at hlast
        apply List.mem_append_left
        exact ihl hhalf' (fun v hv a s hs => hleaf v (List.mem_append_left _ hv) a s
          (List.mem_append_left _ hs)) hlast
      | left =>
        rw [hside] at hlast
        apply List.mem_append_right
        exact ihr hhalf' (fun v hv a s hs => hleaf v (List.mem_append_right _ hv) a s
          (List.mem_append_left _ hs)) hlast

end HashTrees
