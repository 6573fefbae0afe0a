import ChartParsing.Proofs.Steps
import ChartParsing.Proofs.Tree.Walks
import ChartParsing.Tree.Outline
import Mathlib.Data.List.Nodup

/-!
# How the nodes of an outline are hung up

The nodes of an outline are hung up by a walk over a stack, and each of them refers to the nodes
under it by number. In the end every tree that waited on the stack hangs complete from its own node
(`exists_hangFrom`), because the walk never touches a node again once its children are there. So the
lines that are rendered are those of a recursion over the tree (`outline_eq_ok`).
-/

namespace ChartParsing.Tree

/-- The lines of an outline by recursion over the tree, where `here` is the guide of the root and
`below` the beginning of the guides of its descendants. -/
def outlineLines (label : Tree Symbol → String) (here below : String) : Tree Symbol → List String
  | leaf l => [here ++ label (leaf l)]
  | unary kind child =>
    [here ++ label (unary kind child), below ++ "└── " ++ label (leaf child)]
  | binary kind span left right =>
    (here ++ label (binary kind span left right)) ::
      (outlineLines label (below ++ "├── ") (below ++ "│   ") left ++
        outlineLines label (below ++ "└── ") (below ++ "    ") right)

/-- A tree hangs complete from the node with a number, every node after the one it hangs under. -/
def IsHungAt (nodes : Array OutlineNode) (label : Tree Symbol → String) : Tree Symbol → Nat → Prop
  | leaf l, i => nodes[i]? = some ⟨label (leaf l), []⟩
  | unary kind child, i => ∃ j, i < j ∧
    nodes[i]? = some ⟨label (unary kind child), [j]⟩ ∧ nodes[j]? = some ⟨label (leaf child), []⟩
  | binary kind span left right, i => ∃ j k, i < j ∧ i < k ∧
    nodes[i]? = some ⟨label (binary kind span left right), [j, k]⟩ ∧
      IsHungAt nodes label left j ∧ IsHungAt nodes label right k

variable {nodes hung : Array OutlineNode} {label : Tree Symbol → String} {t : Tree Symbol}
variable {i j : Nat} {text : String} {below : List Nat}

section Hang

theorem size_hang (nodes : Array OutlineNode) (i : Nat) (text : String) :
    (hang nodes i text).size = nodes.size + 1 := by
  simp [hang]

theorem getElem?_hang_parent (h : nodes[i]? = some ⟨text, below⟩) (text' : String) :
    (hang nodes i text')[i]? = some ⟨text, below ++ [nodes.size]⟩ := by
  obtain ⟨hi, h⟩ := Array.getElem?_eq_some_iff.1 h
  simp [hang, Array.getElem?_push, Array.getElem_modify, hi, h, Nat.ne_of_lt hi]

theorem getElem?_hang_last (nodes : Array OutlineNode) (i : Nat) (text : String) :
    (hang nodes i text)[nodes.size]? = some ⟨text, []⟩ := by
  rw [hang, Array.getElem?_push, if_pos (by simp)]

theorem getElem?_hang_of_ne (hne : j ≠ i) (hj : j < nodes.size) (text : String) :
    (hang nodes i text)[j]? = nodes[j]? := by
  simp [hang, Array.getElem?_push, Array.getElem?_modify, Nat.ne_of_lt hj, hne.symm]

/-- Nodes with labels are hung up one after the other under a node. -/
structure HangsUnder (nodes : Array OutlineNode) (i : Nat) (texts : List String)
    (hung : Array OutlineNode) : Prop where
  size : hung.size = nodes.size + texts.length
  parent : ∀ text below, nodes[i]? = some ⟨text, below⟩ →
    hung[i]? = some ⟨text, below ++ List.range' nodes.size texts.length⟩
  children : ∀ k text, texts[k]? = some text → hung[nodes.size + k]? = some ⟨text, []⟩
  others : ∀ j, j ≠ i → j < nodes.size → hung[j]? = nodes[j]?

theorem hangsUnder_foldl (texts : List String) (hi : i < nodes.size) :
    HangsUnder nodes i texts (texts.foldl (fun nodes text => hang nodes i text) nodes) := by
  induction texts generalizing nodes with
  | nil => exact ⟨rfl, by simp, by simp, fun _ _ _ => rfl⟩
  | cons text texts ih =>
    have hsize := size_hang nodes i text
    have h := ih (show i < (hang nodes i text).size by omega)
    refine ⟨?_, fun label below hparent => ?_, fun k text' hk => ?_, fun j hne hj => ?_⟩
    · rw [List.foldl_cons, h.size, hsize, List.length_cons]
      omega
    · rw [List.foldl_cons, h.parent _ _ (getElem?_hang_parent hparent text), hsize,
        List.append_assoc, List.singleton_append, List.length_cons, List.range'_succ]
    · cases k with
      | zero =>
        obtain rfl : text = text' := Option.some.inj hk
        rw [List.foldl_cons, Nat.add_zero, h.others _ (Nat.ne_of_gt hi) (by omega)]
        exact getElem?_hang_last nodes i text
      | succ k =>
        have hchild := h.children k text' hk
        rwa [hsize, Nat.add_right_comm, Nat.add_assoc] at hchild
    · rw [List.foldl_cons, h.others j hne (by omega)]
      exact getElem?_hang_of_ne hne hj text

end Hang

section Walk

variable {find : Tree Symbol → Except LookupError String}

/-- Children whose labels are found are hung up one after the other. -/
theorem foldlM_hang {children : List (Tree Symbol)}
    (h : ∀ child ∈ children, find child = .ok (label child)) (nodes : Array OutlineNode) (i : Nat) :
    children.foldlM (fun nodes child => hang nodes i <$> find child) nodes =
      .ok ((children.map label).foldl (fun nodes text => hang nodes i text) nodes) := by
  induction children generalizing nodes with
  | nil => rfl
  | cons child children ih =>
    obtain ⟨hchild, hchildren⟩ := List.forall_mem_cons.1 h
    rw [List.foldlM_cons, hchild]
    exact ih hchildren _

/-- A tree hangs complete when its node refers to later nodes from which its children do. -/
theorem isHungAt_of_children {n : Nat} (hi : i < n)
    (hnode : nodes[i]? = some ⟨label t, List.range' n t.children.length⟩)
    (hchildren : ∀ p ∈ t.children.zipIdx n, IsHungAt nodes label p.1 p.2) :
    IsHungAt nodes label t i := by
  cases t with
  | leaf l => exact hnode
  | unary kind child => exact ⟨n, hi, hnode, hchildren (leaf child, n) List.mem_cons_self⟩
  | binary kind span left right =>
    refine ⟨n, n + 1, hi, Nat.lt_succ_of_lt hi, hnode, ?_, ?_⟩
    · exact hchildren (left, n) List.mem_cons_self
    · exact hchildren (right, n + 1) (List.mem_cons_of_mem _ List.mem_cons_self)

/-- Trees on a stack wait for their children, each at a node of its own, and all labels in them can
be found. -/
structure IsReady (find : Tree Symbol → Except LookupError String)
    (label : Tree Symbol → String) (stack : List (Tree Symbol × Nat))
    (nodes : Array OutlineNode) : Prop where
  found : ∀ p ∈ stack, ∀ u ∈ p.1.nodes, find u = .ok (label u)
  waiting : ∀ p ∈ stack, nodes[p.2]? = some ⟨label p.1, []⟩
  nodup : (stack.map (·.2)).Nodup

/-- The stack after the children of the tree on top are hung up. -/
def stackAfter (t : Tree Symbol) (n : Nat) (stack : List (Tree Symbol × Nat)) :
    List (Tree Symbol × Nat) :=
  (t.children.zipIdx n).reverse ++ stack

variable {stack : List (Tree Symbol × Nat)} {p : Tree Symbol × Nat} {n : Nat}

theorem mem_stackAfter : p ∈ stackAfter t n stack ↔ p ∈ t.children.zipIdx n ∨ p ∈ stack := by
  rw [stackAfter, List.mem_append, List.mem_reverse]

theorem map_snd_stackAfter : (stackAfter t n stack).map (·.2) =
    (List.range' n t.children.length).reverse ++ stack.map (·.2) := by
  rw [stackAfter, List.map_append, List.map_reverse, List.zipIdx_map_snd]

theorem IsReady.lt_size (h : IsReady find label stack nodes) (hj : j ∈ stack.map (·.2)) :
    j < nodes.size := by
  obtain ⟨p, hp, rfl⟩ := List.mem_map.1 hj
  exact (Array.getElem?_eq_some_iff.1 (h.waiting p hp)).1

/-- A number that was there before and does not wait does not wait afterwards. -/
theorem not_mem_stackAfter (hj : j < n) (h : j ∉ stack.map (·.2)) :
    j ∉ (stackAfter t n stack).map (·.2) := by
  rw [map_snd_stackAfter, List.mem_append, List.mem_reverse, List.mem_range'_1, not_or]
  exact ⟨fun hle => by omega, h⟩

/-- One step: the children of the tree on top wait in its place. -/
theorem IsReady.step (h : IsReady find label ((t, i) :: stack) nodes)
    (hstep : HangsUnder nodes i (t.children.map label) hung) :
    IsReady find label (stackAfter t nodes.size stack) hung := by
  obtain ⟨hi, hnodup⟩ := List.nodup_cons.1 h.nodup
  refine ⟨fun p hp u hu => ?_, fun p hp => ?_, ?_⟩
  · rcases mem_stackAfter.1 hp with hp | hp
    · obtain ⟨-, hchild⟩ := List.mem_zipIdx_iff_le_and_getElem?_sub.1 hp
      exact h.found (t, i) List.mem_cons_self u
        (mem_nodes_of_mem_children (List.mem_of_getElem? hchild) hu)
    · exact h.found p (List.mem_cons_of_mem _ hp) u hu
  · rcases mem_stackAfter.1 hp with hp | hp
    · obtain ⟨hle, hchild⟩ := List.mem_zipIdx_iff_le_and_getElem?_sub.1 hp
      have hlabel : (t.children.map label)[p.2 - nodes.size]? = some (label p.1) := by
        rw [List.getElem?_map, hchild, Option.map_some]
      have hnode := hstep.children _ _ hlabel
      rwa [Nat.add_sub_cancel' hle] at hnode
    · have hmem : p.2 ∈ stack.map (·.2) := List.mem_map_of_mem hp
      have hne : p.2 ≠ i := fun he => hi (he ▸ hmem)
      have hlt := h.lt_size (List.mem_cons_of_mem i hmem)
      rw [hstep.others p.2 hne hlt]
      exact h.waiting p (List.mem_cons_of_mem _ hp)
  · rw [map_snd_stackAfter]
    refine List.nodup_append.2 ⟨List.nodup_reverse.2 (List.nodup_range' 1), hnodup, ?_⟩
    rintro j hj k hk rfl
    have hle := (List.mem_range'_1.1 (List.mem_reverse.1 hj)).1
    have hlt := h.lt_size (List.mem_cons_of_mem i hk)
    omega

/-- The whole walk: every tree that waits comes to hang complete, and all other nodes stay as they
were. -/
theorem exists_hangFrom (h : IsReady find label stack nodes) :
    ∃ hung, hangFrom find stack nodes = .ok hung ∧
      (∀ p ∈ stack, IsHungAt hung label p.1 p.2) ∧
      ∀ j < nodes.size, j ∉ stack.map (·.2) → hung[j]? = nodes[j]? := by
  induction stack, nodes using hangFrom.induct with
  | case1 nodes => exact ⟨nodes, by rw [hangFrom], by simp, fun _ _ _ => rfl⟩
  | case2 t i stack nodes ih =>
    have hi : i < nodes.size := h.lt_size List.mem_cons_self
    have hwaits := (List.nodup_cons.1 h.nodup).1
    have hchildren := foldlM_hang (fun child hchild => h.found (t, i) List.mem_cons_self child
      (mem_nodes_of_mem_children hchild (mem_nodes_self child))) nodes i
    have hstep := hangsUnder_foldl (t.children.map label) hi
    obtain ⟨hung, hrun, hcomplete, hkept⟩ := ih _ (h.step hstep)
    refine ⟨hung, ?_, fun p hp => ?_, fun j hj hne => ?_⟩
    · rw [hangFrom, hchildren]
      exact hrun
    · rcases List.mem_cons.1 hp with rfl | hp
      · -- the node of the tree has its children now, and the rest of the walk leaves it alone
        have hnode := hkept i (by rw [hstep.size]; omega) (not_mem_stackAfter hi hwaits)
        rw [hstep.parent _ _ (h.waiting (t, i) List.mem_cons_self), List.nil_append,
          List.length_map] at hnode
        exact isHungAt_of_children hi hnode fun p hp => hcomplete p (mem_stackAfter.2 (.inl hp))
      · exact hcomplete p (mem_stackAfter.2 (.inr hp))
    · rw [List.map_cons, List.mem_cons, not_or] at hne
      rw [hkept j (by rw [hstep.size]; omega) (not_mem_stackAfter hj hne.2),
        hstep.others j hne.1 hj]

end Walk

section Rendering

theorem render_of_getElem? (h : nodes[i]? = some ⟨text, below⟩) (here guide : String) :
    render nodes here guide i = (here ++ text) :: renderBelow nodes guide i below := by
  rw [render, h]

theorem renderBelow_nil (nodes : Array OutlineNode) (guide : String) (i : Nat) :
    renderBelow nodes guide i [] = [] := by
  rw [renderBelow]

/-- What hangs as the last under a node is rendered behind a closing branch. -/
theorem renderBelow_singleton (hj : i < j ∧ j < nodes.size) (guide : String) :
    renderBelow nodes guide i [j] = render nodes (guide ++ "└── ") (guide ++ "    ") j := by
  rw [renderBelow, renderBelow_nil, if_pos hj, List.append_nil]
  rfl

/-- What has more to come after it is rendered behind an open branch. -/
theorem renderBelow_pair {k : Nat} (hj : i < j ∧ j < nodes.size) (guide : String) :
    renderBelow nodes guide i [j, k] = render nodes (guide ++ "├── ") (guide ++ "│   ") j ++
      renderBelow nodes guide i [k] := by
  rw [renderBelow, if_pos hj]
  rfl

theorem IsHungAt.lt_size (h : IsHungAt nodes label t i) : i < nodes.size := by
  have hsome : ∃ node, nodes[i]? = some node := by
    cases t with
    | leaf l => exact ⟨_, h⟩
    | unary kind child =>
      obtain ⟨j, -, hnode, -⟩ := h
      exact ⟨_, hnode⟩
    | binary kind span left right =>
      obtain ⟨j, k, -, -, hnode, -⟩ := h
      exact ⟨_, hnode⟩
  obtain ⟨node, hnode⟩ := hsome
  exact (Array.getElem?_eq_some_iff.1 hnode).1

/-- A tree that hangs complete is rendered as the recursion over it says. -/
theorem render_of_isHungAt (h : IsHungAt nodes label t i) (here guide : String) :
    render nodes here guide i = t.outlineLines label here guide := by
  induction t generalizing i here guide with
  | leaf l => rw [render_of_getElem? h, renderBelow_nil, outlineLines]
  | unary kind child =>
    obtain ⟨j, hj, hnode, hchild⟩ := h
    have hlt := (Array.getElem?_eq_some_iff.1 hchild).1
    rw [render_of_getElem? hnode, renderBelow_singleton ⟨hj, hlt⟩, render_of_getElem? hchild,
      renderBelow_nil, outlineLines]
  | binary kind span left right ihl ihr =>
    obtain ⟨j, k, hj, hk, hnode, hleft, hright⟩ := h
    rw [render_of_getElem? hnode, renderBelow_pair ⟨hj, hleft.lt_size⟩,
      renderBelow_singleton ⟨hk, hright.lt_size⟩, ihl hleft, ihr hright, outlineLines]

end Rendering

/-- A tree whose labels can all be found has the outline that the recursion over it gives. -/
theorem outline_eq_ok {style : OutlineStyle} {names : NameTable}
    (h : ∀ u ∈ t.nodes, (outlineLabel style · u) <$> u.label names = .ok (label u)) :
    t.outline style names = .ok ("\n".intercalate (t.outlineLines label "" "")) := by
  have hready : IsReady (fun u => (outlineLabel style · u) <$> u.label names) label [(t, 0)]
      #[⟨label t, []⟩] :=
    ⟨by simpa using h, by simp, by simp⟩
  obtain ⟨hung, hrun, hcomplete, -⟩ := exists_hangFrom hready
  have hlines := render_of_isHungAt (hcomplete (t, 0) List.mem_cons_self) "" ""
  unfold outline
  simp only [h t (mem_nodes_self t)]
  show hangFrom _ _ _ >>= _ = _
  rw [hrun, ← hlines]
  rfl

end ChartParsing.Tree
