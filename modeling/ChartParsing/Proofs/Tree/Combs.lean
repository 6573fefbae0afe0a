import ChartParsing.Proofs.Tree.Traversal

/-!
# Combs grow at one end

A left comb grows by a tooth behind it, and a right comb that may start anywhere by a tooth before
it. So every binary node has a single character on its right in the one and on its left in the
other.
-/

namespace ChartParsing.Tree

variable {σ : Type} {kind leafKind : σ}

/-- Every binary node of a tree has a part of one character on its right. -/
def HasRightTeeth (t : Tree σ) : Prop :=
  ∀ a span left right, binary a span left right ∈ t.nodes → right.span.length = 1

/-- Every binary node of a tree has a part of one character on its left. -/
def HasLeftTeeth (t : Tree σ) : Prop :=
  ∀ a span left right, binary a span left right ∈ t.nodes → left.span.length = 1

/-- The right comb over `n + 1` characters from a position. -/
def rightCombFrom (kind leafKind : σ) (i n : Nat) : Tree σ :=
  ((List.range' i n).map (tooth kind leafKind)).foldr (branch kind) (tooth kind leafKind (i + n))

theorem leftComb_zero : leftComb kind leafKind 0 = tooth kind leafKind 0 := rfl

theorem leftComb_succ (n : Nat) : leftComb kind leafKind (n + 1) =
    branch kind (leftComb kind leafKind n) (tooth kind leafKind (n + 1)) := by
  rw [leftComb, List.range_succ, List.map_append, List.foldl_append]
  rfl

theorem rightCombFrom_zero (i : Nat) : rightCombFrom kind leafKind i 0 = tooth kind leafKind i :=
  rfl

theorem rightCombFrom_succ (i n : Nat) : rightCombFrom kind leafKind i (n + 1) =
    branch kind (tooth kind leafKind i) (rightCombFrom kind leafKind (i + 1) n) := by
  rw [rightCombFrom, rightCombFrom, List.range'_succ, Nat.add_right_comm i 1 n]
  rfl

theorem rightComb_eq (n : Nat) : rightComb kind leafKind n = rightCombFrom kind leafKind 0 n := by
  rw [rightComb, rightCombFrom, List.range_eq_range', Nat.zero_add]

theorem kind_leftComb (n : Nat) : (leftComb kind leafKind n).kind = kind := by
  cases n with
  | zero => rfl
  | succ n => rw [leftComb_succ]; rfl

theorem kind_rightCombFrom (i n : Nat) : (rightCombFrom kind leafKind i n).kind = kind := by
  cases n with
  | zero => rfl
  | succ n => rw [rightCombFrom_succ]; rfl

/-- The binary nodes of two trees that are joined are those of both trees and the new one. -/
theorem binary_mem_nodes_branch {b a : σ} {span : Span} {left right x y : Tree σ} :
    binary a span left right ∈ (branch b x y).nodes ↔ binary a span left right = branch b x y ∨
      binary a span left right ∈ x.nodes ∨ binary a span left right ∈ y.nodes := by
  rw [branch, nodes_binary, List.mem_cons, List.mem_append]

theorem not_binary_mem_nodes_tooth {a : σ} {span : Span} {left right : Tree σ} {i : Nat} :
    binary a span left right ∉ (tooth kind leafKind i).nodes := by
  simp [tooth, nodes_unary]

theorem HasRightTeeth.branch_tooth {x : Tree σ} {b : σ} {i : Nat} (h : x.HasRightTeeth) :
    (branch b x (tooth kind leafKind i)).HasRightTeeth := by
  intro a span left right hmem
  rcases binary_mem_nodes_branch.1 hmem with heq | hmem | hmem
  · cases heq
    rfl
  · exact h a span left right hmem
  · exact absurd hmem not_binary_mem_nodes_tooth

theorem HasLeftTeeth.tooth_branch {x : Tree σ} {b : σ} {i : Nat} (h : x.HasLeftTeeth) :
    (branch b (tooth kind leafKind i) x).HasLeftTeeth := by
  intro a span left right hmem
  rcases binary_mem_nodes_branch.1 hmem with heq | hmem | hmem
  · cases heq
    rfl
  · exact absurd hmem not_binary_mem_nodes_tooth
  · exact h a span left right hmem

theorem hasRightTeeth_leftComb (n : Nat) : (leftComb kind leafKind n).HasRightTeeth := by
  induction n with
  | zero => exact fun _ _ _ _ hmem => absurd hmem not_binary_mem_nodes_tooth
  | succ n ih =>
    rw [leftComb_succ]
    exact ih.branch_tooth

theorem hasLeftTeeth_rightCombFrom (i n : Nat) :
    (rightCombFrom kind leafKind i n).HasLeftTeeth := by
  induction n generalizing i with
  | zero => exact fun _ _ _ _ hmem => absurd hmem not_binary_mem_nodes_tooth
  | succ n ih =>
    rw [rightCombFrom_succ]
    exact (ih (i + 1)).tooth_branch

end ChartParsing.Tree
