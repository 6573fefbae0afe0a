import ChartParsing.Grammar.Derivation
import ChartParsing.Tree.Traversal
import Mathlib.Data.List.Forall2

/-!
# What walks over parse trees visit

A walk keeps its own stack, but what it visits follows the tree: the nodes of a binary node
are its own, those of its left part and those of its right part, in this order, and so are
the leaves (`leaves_binary`). The text of a tree is then read off its leaves (`text_eq_ok`).
The height follows the tree as well (`height_binary`): a tree that waits on the stack adds the
depth of its root to its own levels.
-/

namespace ChartParsing.Tree

variable {σ : Type}

/-- What is visited from a stack is what is visited from its parts. -/
theorem nodesFrom_append (stack rest : List (Tree σ)) :
    nodesFrom (stack ++ rest) = nodesFrom stack ++ nodesFrom rest := by
  induction stack using nodesFrom.induct with
  | case1 => rw [nodesFrom_nil, List.nil_append, List.nil_append]
  | case2 t stack ih =>
    rw [List.cons_append, nodesFrom_cons, nodesFrom_cons t stack, List.cons_append,
      ← List.append_assoc, ih]

theorem nodes_eq (t : Tree σ) : t.nodes = t :: nodesFrom t.children := by
  rw [nodes, nodesFrom_cons, List.append_nil]

theorem nodes_leaf (l : Leaf σ) : (leaf l).nodes = [leaf l] := by
  rw [nodes_eq, children, nodesFrom_nil]

theorem nodes_unary (kind : σ) (child : Leaf σ) :
    (unary kind child).nodes = [unary kind child, leaf child] := by
  rw [nodes_eq, children, nodesFrom_cons, children, List.nil_append, nodesFrom_nil]

theorem nodes_binary (kind : σ) (span : Span) (left right : Tree σ) :
    (binary kind span left right).nodes =
      binary kind span left right :: (left.nodes ++ right.nodes) := by
  rw [nodes_eq, nodes, nodes, ← nodesFrom_append]
  rfl

@[simp] theorem leaves_leaf (l : Leaf σ) : (leaf l).leaves = [l] := by
  rw [leaves, nodes_leaf]
  rfl

@[simp] theorem leaves_unary (kind : σ) (child : Leaf σ) : (unary kind child).leaves = [child] := by
  rw [leaves, nodes_unary]
  rfl

@[simp] theorem leaves_binary (kind : σ) (span : Span) (left right : Tree σ) :
    (binary kind span left right).leaves = left.leaves ++ right.leaves := by
  rw [leaves, nodes_binary, List.filterMap_cons_none rfl, List.filterMap_append]
  rfl

/-- The number of steps from the root to the deepest leaf, by recursion on the tree. -/
def levels : Tree σ → Nat
  | leaf _ => 0
  | unary .. => 1
  | binary _ _ left right => max left.levels right.levels + 1

theorem heightFrom_nil (deepest : Nat) :
    heightFrom deepest ([] : List (Tree σ × Nat)) = deepest := by
  rw [heightFrom]

/-- A waiting tree counts with the depth of its root and its own levels. -/
theorem heightFrom_cons (t : Tree σ) (deepest depth : Nat) (stack : List (Tree σ × Nat)) :
    heightFrom deepest ((t, depth) :: stack) =
      heightFrom (max deepest (depth + t.levels)) stack := by
  induction t generalizing deepest depth stack with
  | leaf l =>
    rw [heightFrom]
    rfl
  | unary kind child =>
    have hmax : max (max deepest depth) (depth + 1) = max deepest (depth + 1) := by omega
    rw [heightFrom, levels, ← hmax]
    show heightFrom (max deepest depth) ((leaf child, depth + 1) :: stack) = _
    rw [heightFrom]
    rfl
  | binary kind span left right ihl ihr =>
    rw [heightFrom, levels]
    show heightFrom (max deepest depth) ((right, depth + 1) :: (left, depth + 1) :: stack) = _
    rw [ihr, ihl]
    congr 1
    omega

/-- The height that the walk finds is the number of levels. -/
theorem height_eq (t : Tree σ) : t.height = t.levels := by
  rw [height, heightFrom_cons, heightFrom_nil, Nat.zero_add, Nat.zero_max]

theorem height_unary (kind : σ) (child : Leaf σ) : (unary kind child).height = 1 :=
  height_eq _

theorem height_binary (kind : σ) (span : Span) (left right : Tree σ) :
    (binary kind span left right).height = max left.height right.height + 1 := by
  rw [height_eq, height_eq, height_eq, levels]

/-- The frontier of a tree is made of the symbols of its leaves. -/
theorem frontier_eq (t : Tree σ) : t.frontier = t.leaves.map (·.kind) := by
  induction t with
  | leaf l => simp [frontier]
  | unary kind child => simp [frontier]
  | binary kind span left right ihl ihr => simp [frontier, ihl, ihr]

/-- The text of a tree whose leaves have names of one character is made of these. -/
theorem text_eq_ok {names : NameTable} {t : Tree Symbol} {cs : List Char}
    (h : List.Forall₂ (fun l c => names.resolve l.kind = .ok (String.singleton c)) t.leaves cs) :
    t.text names = .ok (String.ofList cs) := by
  have resolved : t.leaves.mapM (fun l => names.resolve l.kind) =
      .ok (cs.map String.singleton) := by
    generalize t.leaves = ls at h
    induction h with
    | nil => rfl
    | cons hr _ ih =>
      rw [List.mapM_cons, hr, ih]
      rfl
  have joined : String.join (cs.map String.singleton) = String.ofList cs := by
    apply String.toList_inj.1
    simp [String.toList_join, List.flatMap_map]
  rw [text, resolved, ← joined]
  rfl

end ChartParsing.Tree
