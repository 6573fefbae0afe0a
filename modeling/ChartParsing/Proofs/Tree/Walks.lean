import ChartParsing.Proofs.Tree.Addresses
import Mathlib.Algebra.GroupWithZero.Nat

/-!
# Walks over trees are recursions

Every tree that the checked constructors build is contiguous and every contiguous tree is built by
them (`isBuilt_iff`). Over such a tree the walks, which keep the trees still to be visited on a
stack, give what recursions over the tree would give (`isWalkedByParts_of_isBuilt`): what is visited
from a stack is what is visited from the trees on it, one after the other.
-/

namespace ChartParsing.Tree

section Building

variable {σ : Type} [ToString σ] {t : Tree σ}

/-- A tree that comes out of the checked constructors. -/
inductive IsBuilt : Tree σ → Prop where
  | leaf {kind : σ} {span : Span} {l : Leaf σ} (h : Leaf.over kind span = .ok l) :
      IsBuilt (leaf l)
  | unary {kind : σ} {child t : Tree σ} (hchild : IsBuilt child)
      (h : unaryOver kind child = .ok t) : IsBuilt t
  | binary {kind : σ} {left right t : Tree σ} (hleft : IsBuilt left) (hright : IsBuilt right)
      (h : join kind left right = .ok t) : IsBuilt t

theorem IsBuilt.isContiguous (h : t.IsBuilt) : t.IsContiguous := by
  induction h with
  | leaf h => trivial
  | @unary kind child t hchild h =>
    cases child with
    | leaf l =>
      cases h
      trivial
    | unary => cases h
    | binary => cases h
  | binary hleft hright h ihl ihr =>
    unfold join at h
    split at h
    · cases h
      exact isContiguous_branch.2 ⟨‹_›, ihl, ihr⟩
    · cases h

/-- The constructors build exactly the contiguous trees. -/
theorem isBuilt_iff : t.IsBuilt ↔ t.IsContiguous := by
  refine ⟨IsBuilt.isContiguous, fun h => ?_⟩
  have hleaf : ∀ l : Leaf σ, (leaf l).IsBuilt := fun l =>
    .leaf (show Leaf.over l.kind l.span = .ok l from rfl)
  induction t with
  | leaf l => exact hleaf l
  | unary kind child =>
    exact .unary (hleaf child) (show unaryOver kind (leaf child) = .ok (unary kind child) from rfl)
  | binary kind span left right ihl ihr =>
    obtain ⟨⟨hspan, hmeet⟩, hl, hr⟩ := h
    have hjoin : join kind left right = .ok (binary kind span left right) := by
      rw [join, if_pos hmeet, branch, hspan]
    exact .binary (ihl hl) (ihr hr) hjoin

end Building

variable {σ : Type} {t : Tree σ}

/-- What is visited from a stack is what is visited from the trees on it. -/
theorem nodesFrom_eq_flatMap (stack : List (Tree σ)) : nodesFrom stack = stack.flatMap nodes := by
  induction stack with
  | nil => exact nodesFrom_nil
  | cons t stack ih =>
    rw [List.flatMap_cons, ← ih, nodes, ← nodesFrom_append]
    rfl

theorem nodes_eq_flatMap (t : Tree σ) : t.nodes = t :: t.children.flatMap nodes := by
  rw [nodes_eq, nodesFrom_eq_flatMap]

theorem mem_nodes_self (t : Tree σ) : t ∈ t.nodes := by
  rw [nodes_eq_flatMap]
  exact List.mem_cons_self

theorem mem_nodes_of_mem_children {child u : Tree σ} (hchild : child ∈ t.children)
    (hu : u ∈ child.nodes) : u ∈ t.nodes := by
  rw [nodes_eq_flatMap]
  exact List.mem_cons_of_mem _ (List.mem_flatMap.2 ⟨child, hchild, hu⟩)

theorem leaves_eq_flatMap (h : t.children ≠ []) : t.leaves = t.children.flatMap leaves := by
  cases t with
  | leaf l => exact absurd rfl h
  | unary kind child => simp [children]
  | binary kind span left right => simp [children]

theorem size_eq_sum (t : Tree σ) : t.size = (t.children.map size).sum + 1 := by
  rw [size, nodes_eq_flatMap, List.length_cons, List.length_flatMap]
  rfl

theorem height_of_no_children (h : t.children = []) : t.height = 0 := by
  cases t with
  | leaf l => exact height_eq _
  | unary kind child => cases h
  | binary kind span left right => cases h

/-- A tree is one step higher than its highest part. -/
theorem height_of_children (h : t.children ≠ []) :
    (∀ child ∈ t.children, child.height < t.height) ∧
      ∃ child ∈ t.children, t.height = child.height + 1 := by
  cases t with
  | leaf l => exact absurd rfl h
  | unary kind child =>
    have hheight : (unary kind child).height = (leaf child).height + 1 := by
      rw [height_unary, height_of_no_children rfl]
    rw [children, List.forall_mem_singleton, hheight]
    exact ⟨Nat.lt_succ_self _, leaf child, List.mem_singleton_self _, rfl⟩
  | binary kind span left right =>
    rw [children, height_binary]
    refine ⟨fun child hchild => ?_, ?_⟩
    · rcases List.mem_pair.1 hchild with rfl | rfl <;> omega
    · rcases Nat.le_total left.height right.height with hle | hle
      · exact ⟨right, by simp, by omega⟩
      · exact ⟨left, by simp, by omega⟩

theorem IsContiguous.start_lt_stop (h : t.IsContiguous) : t.span.start < t.span.stop :=
  Int.lt_add_of_pos_right _ (length_span_pos h)

/-- The parts of a contiguous tree begin and end where the tree does, and meet in between. -/
theorem IsContiguous.parts {kind : σ} {s : Span} {left right : Tree σ}
    (h : (binary kind s left right).IsContiguous) : left.span.start = s.start ∧
      left.span.stop = right.span.start ∧ right.span.stop = s.stop := by
  obtain ⟨⟨rfl, hmeet⟩, -, -⟩ := h
  refine ⟨rfl, hmeet, ?_⟩
  simp only [Span.stop, Span.followedBy] at hmeet ⊢
  omega

/-- A node covers a part of what the tree covers. -/
theorem IsContiguous.of_mem_nodes {u : Tree σ} (h : t.IsContiguous) (hu : u ∈ t.nodes) :
    u.IsContiguous ∧ t.span.start ≤ u.span.start ∧ u.span.stop ≤ t.span.stop := by
  induction t with
  | leaf l =>
    rw [nodes_leaf, List.mem_singleton] at hu
    exact ⟨hu ▸ h, hu ▸ Int.le_refl _, hu ▸ Int.le_refl _⟩
  | unary kind child =>
    rw [nodes_unary, List.mem_pair] at hu
    rcases hu with rfl | rfl
    · exact ⟨h, Int.le_refl _, Int.le_refl _⟩
    · exact ⟨trivial, Int.le_refl _, Int.le_refl _⟩
  | binary kind s left right ihl ihr =>
    obtain ⟨hstart, hmeet, hstop⟩ := h.parts
    have hleft := h.2.1.start_lt_stop
    have hright := h.2.2.start_lt_stop
    rw [nodes_binary, List.mem_cons, List.mem_append] at hu
    show _ ∧ s.start ≤ _ ∧ _ ≤ s.stop
    rcases hu with rfl | hu | hu
    · exact ⟨h, Int.le_refl _, Int.le_refl _⟩
    · obtain ⟨hc, hfirst, hlast⟩ := ihl h.2.1 hu
      exact ⟨hc, by omega, by omega⟩
    · obtain ⟨hc, hfirst, hlast⟩ := ihr h.2.2 hu
      exact ⟨hc, by omega, by omega⟩

/-- No two nodes of a contiguous tree are equal: of two nodes one stands over the other and is of
another class or covers more, or they cover no position in common. -/
theorem IsContiguous.nodup_nodes (h : t.IsContiguous) : t.nodes.Nodup := by
  induction t with
  | leaf l => simp [nodes_leaf]
  | unary kind child => simp [nodes_unary]
  | binary kind s left right ihl ihr =>
    obtain ⟨hstart, hmeet, hstop⟩ := h.parts
    have hleft := h.2.1.start_lt_stop
    have hright := h.2.2.start_lt_stop
    rw [nodes_binary, List.nodup_cons, List.nodup_append, List.mem_append]
    refine ⟨?_, ihl h.2.1, ihr h.2.2, ?_⟩
    · rintro (hu | hu)
      · have hlast : s.stop ≤ left.span.stop := (h.2.1.of_mem_nodes hu).2.2
        omega
      · have hfirst : right.span.start ≤ s.start := (h.2.2.of_mem_nodes hu).2.1
        omega
    · rintro u hu v hv rfl
      obtain ⟨hc, -, hlast⟩ := h.2.1.of_mem_nodes hu
      obtain ⟨-, hfirst, -⟩ := h.2.2.of_mem_nodes hv
      have := hc.start_lt_stop
      omega

/-- The leaves of a contiguous tree cover its positions one by one, from the first to the last. -/
theorem IsContiguous.spans_leaves (h : t.IsContiguous) : t.leaves.map Leaf.span =
    (List.range t.span.length.toNat).map fun (i : Nat) => ⟨t.span.start + i, 1⟩ := by
  induction t with
  | leaf l => simp [span, Leaf.span]
  | unary kind child => simp [span, Leaf.span]
  | binary kind s left right ihl ihr =>
    obtain ⟨⟨rfl, hmeet⟩, hl, hr⟩ := h
    have hlength : (left.span.length + right.span.length).toNat =
        left.span.length.toNat + right.span.length.toNat :=
      Int.toNat_add (Int.le_of_lt (length_span_pos hl)) (Int.le_of_lt (length_span_pos hr))
    have hpos := length_span_pos hl
    rw [Span.stop] at hmeet
    show _ = (List.range (left.span.length + right.span.length).toNat).map _
    rw [hlength, List.range_add, List.map_append, List.map_map, leaves_binary, List.map_append,
      ihl hl, ihr hr]
    refine congrArg _ (List.map_congr_left fun i _ => ?_)
    rw [Function.comp_apply, Span.mk.injEq, and_iff_left rfl]
    show right.span.start + (i : Int) = left.span.start + ((left.span.length.toNat + i : Nat) : Int)
    omega

theorem text_leaf (names : NameTable) (l : Leaf Symbol) :
    (leaf l).text names = names.resolve l.kind := by
  rw [text, leaves_leaf, List.mapM_cons, List.mapM_nil]
  cases names.resolve l.kind with
  | error e => rfl
  | ok s => exact congrArg Except.ok (String.toList_inj.1 (by simp))

/-- The text of a tree is that of its parts, one after the other, up to the first name that is
unknown. -/
theorem text_of_children {t : Tree Symbol} (h : t.children ≠ []) (names : NameTable) :
    t.text names = String.join <$> t.children.mapM (text names) := by
  cases t with
  | leaf l => exact absurd rfl h
  | unary kind child =>
    have htext : (unary kind child).text names = (leaf child).text names := by
      rw [text, text, leaves_unary, leaves_leaf]
    rw [htext, children, List.mapM_cons, List.mapM_nil]
    cases (leaf child).text names with
    | error e => rfl
    | ok s => exact congrArg Except.ok (String.toList_inj.1 (by simp))
  | binary kind span left right =>
    rw [text, leaves_binary, List.mapM_append, children, List.mapM_cons, List.mapM_cons,
      List.mapM_nil, text, text]
    cases left.leaves.mapM fun l => names.resolve l.kind with
    | error e => rfl
    | ok xs =>
      cases right.leaves.mapM fun l => names.resolve l.kind with
      | error e => rfl
      | ok ys =>
        refine congrArg Except.ok (String.toList_inj.1 ?_)
        simp

/-- The walks over a tree give what recursions over it would give. -/
structure IsWalkedByParts (t : Tree Symbol) (names : NameTable) : Prop where
  /-- The nodes are the root and then those of its parts, from left to right. -/
  nodes_eq : t.nodes = t :: t.children.flatMap nodes
  /-- They are the nodes at the addresses of the tree, in the order of the addresses. -/
  map_some_nodes : t.nodes.map some = t.addresses.map t.at?
  mem_addresses_iff : ∀ address, address ∈ t.addresses ↔ (t.at? address).isSome
  pairwise_addresses : t.addresses.Pairwise (· < ·)
  nodup_nodes : t.nodes.Nodup
  leaves_of_leaf : ∀ l, t = leaf l → t.leaves = [l]
  leaves_of_children : t.children ≠ [] → t.leaves = t.children.flatMap leaves
  /-- The leaves cover the positions one by one, from the first to the last. -/
  spans_leaves : t.leaves.map Leaf.span =
    (List.range t.span.length.toNat).map fun (i : Nat) => ⟨t.span.start + i, 1⟩
  length_pos : 0 < t.span.length
  text_of_leaf : ∀ l, t = leaf l → t.text names = names.resolve l.kind
  text_of_children : t.children ≠ [] → t.text names = String.join <$> t.children.mapM (text names)
  height_of_leaf : t.children = [] → t.height = 0
  height_of_children : t.children ≠ [] → (∀ child ∈ t.children, child.height < t.height) ∧
    ∃ child ∈ t.children, t.height = child.height + 1
  size_eq : t.size = (t.children.map size).sum + 1

/-- The walks over every tree that the constructors build are recursions: the nodes come in prefix
order, each once, the leaves from left to right, and text, height and size are put together from
those of the parts. -/
theorem isWalkedByParts_of_isBuilt {t : Tree Symbol} (h : t.IsBuilt) (names : NameTable) :
    t.IsWalkedByParts names where
  nodes_eq := t.nodes_eq_flatMap
  map_some_nodes := t.map_some_nodes
  mem_addresses_iff _ := Tree.mem_addresses_iff
  pairwise_addresses := t.pairwise_addresses
  nodup_nodes := h.isContiguous.nodup_nodes
  leaves_of_leaf := by
    rintro l rfl
    exact leaves_leaf l
  leaves_of_children := leaves_eq_flatMap
  spans_leaves := h.isContiguous.spans_leaves
  length_pos := length_span_pos h.isContiguous
  text_of_leaf := by
    rintro l rfl
    exact text_leaf names l
  text_of_children hparts := Tree.text_of_children hparts names
  height_of_leaf := height_of_no_children
  height_of_children := Tree.height_of_children
  size_eq := t.size_eq_sum

/-- Three positions from the fourth on: a bare leaf beside a node over a unit node and a leaf. -/
def lopsided : Tree Symbol :=
  branch 1 (leaf ⟨0, 3⟩) (branch 2 (unary 1 ⟨0, 4⟩) (leaf ⟨3, 5⟩))

theorem lopsided_isWalkedByParts : lopsided.IsBuilt ∧
    lopsided.IsWalkedByParts ⟨["a", "S", "T", "b"]⟩ ∧
    lopsided.leaves.map Leaf.span = [⟨3, 1⟩, ⟨4, 1⟩, ⟨5, 1⟩] ∧ lopsided.size = 6 ∧
    lopsided.addresses = [[], [0], [1], [1, 0], [1, 0, 0], [1, 1]] := by
  have hbuilt : lopsided.IsBuilt := isBuilt_iff.2 (by decide)
  have hwalks := isWalkedByParts_of_isBuilt hbuilt ⟨["a", "S", "T", "b"]⟩
  have hsize : lopsided.size = lopsided.addresses.length := by
    rw [size, ← List.length_map some, hwalks.map_some_nodes, List.length_map]
  exact ⟨hbuilt, hwalks, hwalks.spans_leaves, hsize, rfl⟩

end ChartParsing.Tree
