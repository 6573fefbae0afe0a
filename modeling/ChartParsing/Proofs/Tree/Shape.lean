import ChartParsing.Proofs.Tree.Parse
import Mathlib.Algebra.Group.Nat.Defs
import Mathlib.Data.List.Count

/-!
# The shape of parse trees

A parse tree stands on unit nodes, one over each character, and its other nodes join two trees
each. The number of characters then says how many nodes there are, and how high the tree can be:
no higher than a comb, no lower than a balanced tree (`IsParse.isShapedOver`).
-/

namespace ChartParsing.Tree

variable {σ : Type}

/-- The unit nodes of a tree, from left to right. -/
def unitNodes (t : Tree σ) : List (Tree σ) :=
  t.nodes.filter fun u => decide (u.shape = .unary)

/-- The number of binary nodes of a tree. -/
def binaryCount (t : Tree σ) : Nat :=
  t.nodes.countP fun u => decide (u.shape = .binary)

/-- The shape of a tree over the `l` characters from position `i`. -/
structure IsShapedOver (t : Tree σ) (i l : Nat) : Prop where
  spans_leaves : t.leaves.map Leaf.span = (List.range' i l).map fun j => ⟨j, 1⟩
  /-- The unit nodes have the leaves as their only children, in the same order. -/
  children_unitNodes : t.unitNodes.map children = t.leaves.map fun m => [leaf m]
  /-- Nothing but a unit node has a leaf as a child. -/
  shape_of_leaf_mem : ∀ u ∈ t.nodes, ∀ m, leaf m ∈ u.children → u.shape = .unary
  shape_ne_leaf : t.shape ≠ .leaf
  binaryCount_succ : t.binaryCount + 1 = l
  size_succ : t.size + 1 = 3 * l
  height_pos : 0 < t.height
  height_le : t.height ≤ l
  le_two_pow : l ≤ 2 ^ (t.height - 1)

theorem isShapedOver_unary (a s : σ) (i : Nat) : (unary a ⟨s, i⟩).IsShapedOver i 1 where
  spans_leaves := by
    rw [leaves_unary]
    rfl
  children_unitNodes := by
    rw [unitNodes, nodes_unary, leaves_unary]
    rfl
  shape_of_leaf_mem := by
    rw [nodes_unary]
    simp [shape, children]
  shape_ne_leaf := by
    rw [shape]
    decide
  binaryCount_succ := by
    rw [binaryCount, nodes_unary]
    rfl
  size_succ := by
    rw [size, nodes_unary]
    rfl
  height_pos := by
    rw [height_unary]
    decide
  height_le := Nat.le_of_eq (height_unary a ⟨s, i⟩)
  le_two_pow := Nat.one_le_two_pow

/-- Twice as many characters fit under a tree that is one step higher. -/
theorem add_le_two_pow_max {k m g h : Nat} (hg : 0 < g) (hk : k ≤ 2 ^ (g - 1))
    (hm : m ≤ 2 ^ (h - 1)) : k + m ≤ 2 ^ max g h := by
  have hleft : 2 ^ (g - 1) ≤ 2 ^ (max g h - 1) := Nat.pow_le_pow_right (by decide) (by omega)
  have hright : 2 ^ (h - 1) ≤ 2 ^ (max g h - 1) := Nat.pow_le_pow_right (by decide) (by omega)
  calc k + m ≤ 2 ^ (max g h - 1) * 2 := by omega
    _ = 2 ^ max g h := by
      rw [← Nat.pow_succ]
      congr 1
      omega

/-- Two trees that meet give one over the characters of both. -/
theorem IsShapedOver.binary {a : σ} {s : Span} {x y : Tree σ} {i k m : Nat}
    (hx : x.IsShapedOver i k) (hy : y.IsShapedOver (i + k) m) :
    (Tree.binary a s x y).IsShapedOver i (k + m) where
  spans_leaves := by
    rw [leaves_binary, List.map_append, hx.spans_leaves, hy.spans_leaves, ← List.map_append,
      List.range'_append_1]
  children_unitNodes := by
    have hparts : (Tree.binary a s x y).unitNodes = x.unitNodes ++ y.unitNodes := by
      rw [unitNodes, nodes_binary, List.filter_cons_of_neg (by simp [shape]), List.filter_append]
      rfl
    rw [hparts, leaves_binary, List.map_append, List.map_append, hx.children_unitNodes,
      hy.children_unitNodes]
  shape_of_leaf_mem := by
    intro u hu n hn
    rw [nodes_binary, List.mem_cons, List.mem_append] at hu
    rcases hu with rfl | hu | hu
    · rcases List.mem_pair.1 hn with rfl | rfl
      · exact absurd rfl hx.shape_ne_leaf
      · exact absurd rfl hy.shape_ne_leaf
    · exact hx.shape_of_leaf_mem u hu n hn
    · exact hy.shape_of_leaf_mem u hu n hn
  shape_ne_leaf := by
    rw [shape]
    decide
  binaryCount_succ := by
    have hparts : (Tree.binary a s x y).binaryCount = x.binaryCount + y.binaryCount + 1 := by
      rw [binaryCount, nodes_binary, List.countP_cons_of_pos (by simp [shape]), List.countP_append]
      rfl
    have := hx.binaryCount_succ
    have := hy.binaryCount_succ
    omega
  size_succ := by
    have hparts : (Tree.binary a s x y).size = x.size + y.size + 1 := by
      rw [size, nodes_binary, List.length_cons, List.length_append]
      rfl
    have := hx.size_succ
    have := hy.size_succ
    omega
  height_pos := by
    rw [height_binary]
    exact Nat.succ_pos _
  height_le := by
    have := hx.height_le
    have := hy.height_le
    have := hx.height_pos
    have := hy.height_pos
    rw [height_binary]
    omega
  le_two_pow := by
    rw [height_binary, Nat.add_sub_cancel]
    exact add_le_two_pow_max hx.height_pos hx.le_two_pow hy.le_two_pow

variable [DecidableEq σ]

/-- The shape of a parse tree is given by the part of the text that it covers. -/
theorem IsParse.isShapedOver {g : Grammar σ} {spells : σ → Char → Prop} {text : List Char}
    {t : Tree σ} {i l : Nat} (h : t.IsParse g spells text) (hs : t.span = ⟨i, l⟩) :
    t.IsShapedOver i l := by
  induction t generalizing i l with
  | leaf m => exact h.elim
  | unary a child =>
    obtain ⟨s, position⟩ := child
    simp only [span, Leaf.span, Span.mk.injEq] at hs
    obtain ⟨rfl, hl⟩ := hs
    obtain rfl : l = 1 := by omega
    exact isShapedOver_unary a s i
  | binary a s left right ihl ihr =>
    obtain ⟨k, -, hkl, hleft, hright⟩ := h.exists_parts hs
    obtain ⟨-, -, hl, hr⟩ := h
    have hall := (ihl hl hleft).binary (a := a) (s := s) (ihr hr hright)
    rwa [Nat.add_sub_cancel' (Nat.le_of_lt hkl)] at hall

end ChartParsing.Tree
