import ChartParsing.Tree.Traversal

/-!
# Outlines of parse trees

An outline shows one node a line, each before its descendants and from left to right. A
guide in front of a node's label tells where it hangs: four columns for each level, with a
branch for the node itself and a stroke for every ancestor that has a sibling still to come.
A node above the leaves is labelled with its name and its span, a leaf with the literal of
its character. The nodes of an outline are numbered in the order in which they are hung up,
by a walk that keeps the trees still to be visited on a stack.
-/

namespace ChartParsing.Tree

/-- Whether the labels of an outline carry terminal colour codes. -/
inductive OutlineStyle where
  | plain
  | colored
deriving DecidableEq, Repr

/-- The code that starts a style, for the numbers of it. -/
def styleCode (numbers : String) : String :=
  String.singleton (Char.ofNat 27) ++ "[" ++ numbers ++ "m"

/-- A text in a style of a colour terminal; a text without characters needs no codes. -/
def styled (style : OutlineStyle) (numbers text : String) : String :=
  match style with
  | .plain => text
  | .colored => if text.isEmpty then "" else styleCode numbers ++ text ++ styleCode "0"

/-- The label of a node in an outline, for the name of its symbol. -/
def outlineLabel (style : OutlineStyle) (name : String) (t : Tree Symbol) : String :=
  match t with
  | leaf _ => styled style "35" (Text.literal name)
  | t => styled style "1;34" name ++ " " ++ t.span.literal

/-- A node of an outline: its label and the numbers of the nodes under it, from top to bottom. -/
structure OutlineNode where
  label : String
  below : List Nat
deriving DecidableEq, Repr

/-- The nodes of an outline with one more, which hangs under a node that is there already. -/
def hang (nodes : Array OutlineNode) (parent : Nat) (label : String) : Array OutlineNode :=
  (nodes.modify parent fun node => { node with below := node.below ++ [nodes.size] }).push
    ⟨label, []⟩

/-- Hangs up what stands under the trees on a stack, each of which waits with the number of its
own node. All children of a tree are hung up together, and those of the rightmost waiting tree
first. -/
def hangFrom (label : Tree Symbol → Except LookupError String) :
    List (Tree Symbol × Nat) → Array OutlineNode → Except LookupError (Array OutlineNode)
  | [], nodes => .ok nodes
  | (t, i) :: stack, nodes => do
    let hung ← t.children.foldlM (fun nodes child => hang nodes i <$> label child) nodes
    hangFrom label ((t.children.zipIdx nodes.size).reverse ++ stack) hung
termination_by stack => totalCount (stack.map (·.1))
decreasing_by
  have hzip : (t.children.zipIdx nodes.size).map (·.1) = t.children := by simp
  have e : ((t, i) :: stack).map (·.1) = t :: stack.map (·.1) := rfl
  have := t.nodeCount_eq
  rw [List.map_append, List.map_reverse, hzip, totalCount_append, totalCount_reverse, e, totalCount]
  omega

mutual

/-- The lines of the node with a number and of what hangs under it, where `here` is the guide of
the node and `below` the beginning of the guides under it. -/
def render (nodes : Array OutlineNode) (here below : String) (i : Nat) : List String :=
  match nodes[i]? with
  | none => []
  | some node => (here ++ node.label) :: renderBelow nodes below i node.below
termination_by (2 * (nodes.size - i) + 1, 0)

/-- The lines of nodes that hang under one node, all of which were hung up after it. -/
def renderBelow (nodes : Array OutlineNode) (below : String) (i : Nat) : List Nat → List String
  | [] => []
  | child :: rest =>
    let lines :=
      if i < child ∧ child < nodes.size then
        if rest.isEmpty then render nodes (below ++ "└── ") (below ++ "    ") child
        else render nodes (below ++ "├── ") (below ++ "│   ") child
      else []
    lines ++ renderBelow nodes below i rest
termination_by rest => (2 * (nodes.size - i), rest.length)

end

/-- The outline of a tree, all of whose symbols must have names. -/
def outline (style : OutlineStyle) (names : NameTable) (t : Tree Symbol) :
    Except LookupError String := do
  let label (x : Tree Symbol) := (outlineLabel style · x) <$> x.label names
  let nodes ← hangFrom label [(t, 0)] #[⟨← label t, []⟩]
  return "\n".intercalate (render nodes "" "" 0)

end ChartParsing.Tree
