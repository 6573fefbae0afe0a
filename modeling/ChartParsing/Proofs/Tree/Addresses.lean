import ChartParsing.Proofs.Tree.Traversal

/-!
# Addresses of nodes

A node of a tree is found by its address: which child to take at each step down from the root, the
first child being number zero. `addresses` lists the addresses of all nodes in the order of a
dictionary, each once (`mem_addresses_iff`, `pairwise_addresses`), which puts every node before what
stands under it and its parts from left to right. The walk over the nodes goes through them in this
order (`map_some_nodes`).
-/

namespace ChartParsing.Tree

variable {σ : Type}

/-- The node at an address, if there is one. -/
def at? : Tree σ → List Nat → Option (Tree σ)
  | t, [] => some t
  | t, i :: address => t.children[i]?.bind fun child => child.at? address

/-- The addresses of all nodes. -/
def addresses : Tree σ → List (List Nat)
  | leaf _ => [[]]
  | unary .. => [[], [0]]
  | binary _ _ left right =>
    [] :: (left.addresses.map (0 :: ·) ++ right.addresses.map (1 :: ·))

variable {t : Tree σ} {i : Nat} {address : List Nat}

@[simp] theorem at?_nil (t : Tree σ) : t.at? [] = some t := rfl

theorem at?_cons (t : Tree σ) (i : Nat) (address : List Nat) :
    t.at? (i :: address) = t.children[i]?.bind fun child => child.at? address := rfl

theorem at?_leaf_cons (l : Leaf σ) (i : Nat) (address : List Nat) :
    (leaf l).at? (i :: address) = none := rfl

theorem at?_unary_cons (kind : σ) (child : Leaf σ) (i : Nat) (address : List Nat) :
    (unary kind child).at? (i :: address) =
      if i = 0 ∧ address = [] then some (leaf child) else none := by
  cases i with
  | zero => cases address <;> simp [at?, children]
  | succ i => simp [at?, children]

section Binary

variable (kind : σ) (span : Span) (left right : Tree σ) (address : List Nat)

@[simp] theorem at?_binary_zero :
    (binary kind span left right).at? (0 :: address) = left.at? address := rfl

@[simp] theorem at?_binary_one :
    (binary kind span left right).at? (1 :: address) = right.at? address := rfl

theorem at?_binary_of_two_le (i : Nat) :
    (binary kind span left right).at? ((i + 2) :: address) = none := rfl

end Binary

/-- There is a node exactly at the addresses that are listed. -/
theorem mem_addresses_iff : address ∈ t.addresses ↔ (t.at? address).isSome := by
  induction t generalizing address with
  | leaf l => cases address <;> simp [addresses, at?_leaf_cons]
  | unary kind child =>
    cases address with
    | nil => simp [addresses]
    | cons i address =>
      rw [at?_unary_cons]
      by_cases h : i = 0 ∧ address = [] <;> simp [addresses, h]
  | binary kind span left right ihl ihr =>
    match address with
    | [] => simp [addresses]
    | 0 :: address => simp [addresses, ihl]
    | 1 :: address => simp [addresses, ihr]
    | (i + 2) :: address => simp [addresses, at?_binary_of_two_le]

/-- The addresses are listed in the order of a dictionary, each once. -/
theorem pairwise_addresses (t : Tree σ) : t.addresses.Pairwise (· < ·) := by
  have hbelow : ∀ (i : Nat) (as : List (List Nat)), as.Pairwise (· < ·) →
      (as.map (i :: ·)).Pairwise (· < ·) := by
    intro i as h
    refine List.pairwise_map.2 (h.imp fun hlt => ?_)
    exact List.cons_lt_cons_iff.2 (.inr ⟨rfl, hlt⟩)
  induction t with
  | leaf l => exact List.pairwise_singleton _ _
  | unary kind child =>
    exact List.pairwise_pair.2 (List.nil_lt_cons 0 [])
  | binary kind span left right ihl ihr =>
    refine List.pairwise_cons.2 ⟨fun a ha => ?_, List.pairwise_append.2
      ⟨hbelow 0 _ ihl, hbelow 1 _ ihr, fun a ha b hb => ?_⟩⟩
    · rcases List.mem_append.1 ha with ha | ha
      · obtain ⟨a, -, rfl⟩ := List.mem_map.1 ha
        exact List.nil_lt_cons 0 a
      · obtain ⟨a, -, rfl⟩ := List.mem_map.1 ha
        exact List.nil_lt_cons 1 a
    · obtain ⟨a, -, rfl⟩ := List.mem_map.1 ha
      obtain ⟨b, -, rfl⟩ := List.mem_map.1 hb
      exact List.cons_lt_cons_iff.2 (.inl Nat.zero_lt_one)

/-- The walk over the nodes visits the nodes at the addresses, in their order. -/
theorem map_some_nodes (t : Tree σ) : t.nodes.map some = t.addresses.map t.at? := by
  induction t with
  | leaf l =>
    rw [nodes_leaf]
    rfl
  | unary kind child =>
    rw [nodes_unary]
    rfl
  | binary kind span left right ihl ihr =>
    rw [nodes_binary, addresses, List.map_cons, List.map_append, ihl, ihr, List.map_cons,
      List.map_append, List.map_map, List.map_map]
    rfl

end ChartParsing.Tree
