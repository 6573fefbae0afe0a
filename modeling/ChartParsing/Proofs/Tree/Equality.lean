import ChartParsing.Proofs.Tree.Addresses
import ChartParsing.Tree.Equality

/-!
# The comparison of trees

Two trees correspond when they have nodes at the same addresses, of the same class, symbol and span
at each of them (`Corresponds`). The comparison takes pairs of nodes from a stack until one of them
differs at its root. A tree is made up of its root and its children (`eq_of_parts`), so all pairs on
the stack are equal exactly when the comparison gets through it (`equalPairs_iff`), whatever its
shortcuts are.
-/

namespace ChartParsing.Tree

variable {σ : Type} {x y : Tree σ}

/-- What a node is without its children: its class, its symbol and its span. -/
def root (t : Tree σ) : NodeShape × σ × Span := (t.shape, t.kind, t.span)

/-- Two trees have nodes at the same addresses, of the same class, symbol and span at each. -/
def Corresponds (x y : Tree σ) : Prop :=
  ∀ address, (x.at? address).map root = (y.at? address).map root

/-- What holds of a tree as soon as it holds of its children holds of every tree. -/
theorem children_induction {P : Tree σ → Prop}
    (h : ∀ t : Tree σ, (∀ child ∈ t.children, P child) → P t) (t : Tree σ) : P t := by
  have hleaf : ∀ l : Leaf σ, P (leaf l) := fun l => h _ (List.forall_mem_nil P)
  induction t with
  | leaf l => exact hleaf l
  | unary kind child => exact h _ (List.forall_mem_singleton.2 (hleaf child))
  | binary kind span left right ihl ihr =>
    exact h _ (List.forall_mem_cons.2 ⟨ihl, List.forall_mem_singleton.2 ihr⟩)

/-- A tree is made up of its root and its children. Roots of one class have equally many children,
so that pairing them leaves out none. -/
theorem eq_of_parts (hroot : x.root = y.root)
    (hparts : ∀ p ∈ x.children.zip y.children, p.1 = p.2) : x = y := by
  obtain ⟨hshape, hkind, hspan⟩ : x.shape = y.shape ∧ x.kind = y.kind ∧ x.span = y.span := by
    simpa [root] using hroot
  cases x with
  | leaf l =>
    cases y with
    | leaf m =>
      obtain ⟨s, i⟩ := l
      obtain rfl : s = m.kind := hkind
      obtain rfl : i = m.position := congrArg Span.start hspan
      rfl
    | unary => cases hshape
    | binary => cases hshape
  | unary kind child =>
    cases y with
    | leaf => cases hshape
    | unary kind' child' =>
      obtain rfl : kind = kind' := hkind
      have hchild := hparts (leaf child, leaf child') (List.mem_singleton_self _)
      cases hchild
      rfl
    | binary => cases hshape
  | binary kind span left right =>
    cases y with
    | leaf => cases hshape
    | unary => cases hshape
    | binary kind' span' left' right' =>
      obtain rfl : kind = kind' := hkind
      obtain rfl : span = span' := hspan
      obtain rfl : left = left' := hparts (left, left') List.mem_cons_self
      obtain rfl : right = right' :=
        hparts (right, right') (List.mem_cons_of_mem _ (List.mem_singleton_self _))
      rfl

theorem corresponds_iff : Corresponds x y ↔ x = y := by
  refine ⟨fun h => ?_, fun h => h ▸ fun _ => rfl⟩
  induction x using children_induction generalizing y with
  | h x ih =>
    refine eq_of_parts (Option.some.inj (h [])) fun p hp => ?_
    obtain ⟨i, hi⟩ := List.mem_iff_getElem?.1 hp
    obtain ⟨hx, hy⟩ := List.getElem?_zip_eq_some.1 hi
    refine ih p.1 (List.mem_of_getElem? hx) fun address => ?_
    have hbelow := h (i :: address)
    rwa [at?_cons, at?_cons, hx, hy] at hbelow

section Comparison

variable [DecidableEq σ] (shortcuts : Shortcuts σ)

theorem rootsAgree_iff : shortcuts.rootsAgree x y = true ↔
    x.root = y.root ∧ shortcuts.fingerprint x = shortcuts.fingerprint y := by
  simp only [Shortcuts.rootsAgree, root, Bool.and_eq_true, decide_eq_true_eq, beq_iff_eq,
    Prod.mk.injEq]
  tauto

/-- The comparison gets through a stack exactly when all pairs on it are equal. -/
theorem equalPairs_iff (stack : List (Tree σ × Tree σ)) :
    equalPairs shortcuts stack = true ↔ ∀ p ∈ stack, p.1 = p.2 := by
  induction stack using equalPairs.induct shortcuts with
  | case1 =>
    rw [equalPairs]
    exact iff_of_true rfl (List.forall_mem_nil _)
  | case2 x y stack hidentical ih =>
    rw [equalPairs, if_pos hidentical, ih, List.forall_mem_cons]
    exact (and_iff_right (shortcuts.eq_of_identical hidentical)).symm
  | case3 x y stack hidentical hroots ih =>
    rw [equalPairs, if_neg hidentical, if_pos hroots, ih, List.forall_mem_append,
      List.forall_mem_cons]
    refine and_congr_left fun _ => ⟨fun hparts => ?_, ?_⟩
    · exact eq_of_parts ((rootsAgree_iff shortcuts).1 hroots).1 fun p hp =>
        hparts p (List.mem_reverse.2 hp)
    · intro heq p hp
      obtain rfl : x = y := heq
      obtain ⟨i, hi⟩ := List.mem_iff_getElem?.1 (List.mem_reverse.1 hp)
      obtain ⟨hfirst, hsecond⟩ := List.getElem?_zip_eq_some.1 hi
      exact Option.some.inj (hfirst.symm.trans hsecond)
  | case4 x y stack hidentical hroots =>
    rw [equalPairs, if_neg hidentical, if_neg hroots, List.forall_mem_cons]
    refine iff_of_false Bool.false_ne_true fun h => hroots ?_
    exact (rootsAgree_iff shortcuts).2 ⟨congrArg root h.1, congrArg _ h.1⟩

theorem equal_iff : equal shortcuts x y = true ↔ x = y := by
  rw [equal, equalPairs_iff, List.forall_mem_singleton]

/-- The comparison, with any fingerprints and any sound test for identity, says that two trees are
equal exactly when they have the same shape, and nodes of the same class, symbol and span at every
address. So it is an equivalence, and trees that it calls equal have equal fingerprints. -/
theorem equal_exactly_corresponding :
    (∀ x y : Tree σ, equal shortcuts x y = true ↔ Corresponds x y) ∧
    Equivalence (fun x y : Tree σ => equal shortcuts x y = true) ∧
    ∀ x y : Tree σ, equal shortcuts x y = true →
      shortcuts.fingerprint x = shortcuts.fingerprint y := by
  refine ⟨fun x y => ?_, ⟨fun x => ?_, fun h => ?_, fun h h' => ?_⟩, fun x y h => ?_⟩
  · rw [equal_iff, corresponds_iff]
  · rw [equal_iff]
  · rw [equal_iff] at h ⊢
    exact h.symm
  · rw [equal_iff] at h h' ⊢
    exact h.trans h'
  · rw [(equal_iff shortcuts).1 h]

end Comparison

end ChartParsing.Tree
