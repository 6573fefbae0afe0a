import ChartParsing.NameTable
import ChartParsing.Tree.Basic

/-!
# Walks over parse trees

Parse trees can be as deep as the text is long, so the walks keep the trees still to be
visited on a stack of their own: `nodes` visits every node before what stands under it and
from left to right, and the leaves, the text and the size are read off that list. `height`
carries the depth of each waiting tree along.
-/

namespace ChartParsing.Tree

variable {σ : Type}

/-- The nodes of the trees on a stack, with its top at the front. -/
def nodesFrom : List (Tree σ) → List (Tree σ)
  | [] => []
  | t :: stack => t :: nodesFrom (t.children ++ stack)
termination_by stack => totalCount stack
decreasing_by
  have := t.nodeCount_eq
  rw [totalCount_append, totalCount]
  omega

/-- All nodes of a tree, each before its descendants and from left to right. -/
def nodes (t : Tree σ) : List (Tree σ) :=
  nodesFrom [t]

/-- The leaf that a tree is. -/
def leaf? : Tree σ → Option (Leaf σ)
  | leaf l => some l
  | _ => none

/-- The leaves from left to right. -/
def leaves (t : Tree σ) : List (Leaf σ) :=
  t.nodes.filterMap leaf?

/-- The number of nodes visited. -/
def size (t : Tree σ) : Nat :=
  t.nodes.length

/-- The greatest of `deepest` and the depths of the trees on a stack, each of which waits
with the depth of its root. -/
def heightFrom (deepest : Nat) : List (Tree σ × Nat) → Nat
  | [] => deepest
  | (t, depth) :: stack =>
    heightFrom (max deepest depth) (t.children.reverse.map (·, depth + 1) ++ stack)
termination_by stack => totalCount (stack.map (·.1))
decreasing_by
  have h : (t.children.reverse.map (·, depth + 1)).map (·.1) = t.children.reverse := by
    simp [List.map_map, Function.comp_def]
  have e : ((t, depth) :: stack).map (·.1) = t :: stack.map (·.1) := rfl
  have := t.nodeCount_eq
  rw [List.map_append, h, totalCount_append, totalCount_reverse, e, totalCount]
  omega

/-- The number of steps from the root to the deepest leaf. -/
def height (t : Tree σ) : Nat :=
  heightFrom 0 [(t, 0)]

/-- The names of the leaves, one after the other. -/
def text (names : NameTable) (t : Tree Symbol) : Except LookupError String :=
  String.join <$> t.leaves.mapM fun l => names.resolve l.kind

/-- The name of the root's symbol. -/
def label (names : NameTable) (t : Tree Symbol) : Except LookupError String :=
  names.resolve t.kind

@[simp] theorem nodesFrom_nil : nodesFrom ([] : List (Tree σ)) = [] := by
  rw [nodesFrom]

theorem nodesFrom_cons (t : Tree σ) (stack : List (Tree σ)) :
    nodesFrom (t :: stack) = t :: nodesFrom (t.children ++ stack) := by
  rw [nodesFrom]

end ChartParsing.Tree
