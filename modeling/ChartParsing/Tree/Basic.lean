import ChartParsing.Breach

/-!
# Parse trees

A tree is a leaf, which is one character of the text; a unit node, which expands to one leaf;
or a binary node over two trees. A binary node keeps its span, so that the span of a tree of
any depth is at hand. The checked constructors `Leaf.over`, `Tree.unaryOver` and `Tree.join`
refuse what could not cover an interval of the text; `Tree.IsContiguous` says that a tree
could have been built by them. The combs are the two extreme shapes of a tree.
-/

namespace ChartParsing

variable {σ : Type}

/-- One character of the text: its terminal symbol and its position. -/
structure Leaf (σ : Type) where
  kind : σ
  position : Int
deriving DecidableEq, Repr

/-- A parse tree over symbols of type `σ`. -/
inductive Tree (σ : Type) where
  | leaf (l : Leaf σ)
  | unary (kind : σ) (child : Leaf σ)
  | binary (kind : σ) (span : Span) (left right : Tree σ)
deriving DecidableEq, Repr

/-- The three kinds of nodes. -/
inductive NodeShape where
  | leaf
  | unary
  | binary
deriving DecidableEq, Repr

/-- A shape as it is shown. -/
def NodeShape.literal : NodeShape → String
  | leaf => "Leaf"
  | unary => "Unary"
  | binary => "Binary"

/-- The single position of a leaf. -/
def Leaf.span (l : Leaf σ) : Span := ⟨l.position, 1⟩

/-- The leaf of a symbol over a span, which must be one character long. -/
def Leaf.over (kind : σ) (span : Span) : Except Breach (Leaf σ) :=
  if span.length = 1 then .ok ⟨kind, span.start⟩ else .error (.notOneCharacter span)

namespace Tree

/-- The symbol at the root. -/
def kind : Tree σ → σ
  | leaf l => l.kind
  | unary kind _ => kind
  | binary kind _ _ _ => kind

/-- The shape of the root. -/
def shape : Tree σ → NodeShape
  | leaf _ => .leaf
  | unary .. => .unary
  | binary .. => .binary

/-- The part of the text that a tree covers. -/
def span : Tree σ → Span
  | leaf l => l.span
  | unary _ child => child.span
  | binary _ span _ _ => span

/-- The trees under the root, from left to right. -/
def children : Tree σ → List (Tree σ)
  | leaf _ => []
  | unary _ child => [leaf child]
  | binary _ _ left right => [left, right]

/-- The number of nodes. -/
def nodeCount : Tree σ → Nat
  | leaf _ => 1
  | unary .. => 2
  | binary _ _ left right => left.nodeCount + right.nodeCount + 1

/-- The number of nodes of several trees together. -/
def totalCount : List (Tree σ) → Nat
  | [] => 0
  | t :: ts => t.nodeCount + totalCount ts

/-- Whether the parts of every binary node meet and make up its span. -/
def IsContiguous : Tree σ → Prop
  | leaf _ => True
  | unary .. => True
  | binary _ span left right =>
    (span = left.span.followedBy right.span ∧ left.span.stop = right.span.start) ∧
      left.IsContiguous ∧ right.IsContiguous

instance decidableIsContiguous : (t : Tree σ) → Decidable t.IsContiguous
  | leaf _ => inferInstanceAs (Decidable True)
  | unary .. => inferInstanceAs (Decidable True)
  | binary _ span left right =>
    have := decidableIsContiguous left
    have := decidableIsContiguous right
    inferInstanceAs (Decidable ((span = left.span.followedBy right.span ∧
      left.span.stop = right.span.start) ∧ _ ∧ _))

/-- A node as it is shown, without what stands under it. -/
def literal [ToString σ] (t : Tree σ) : String :=
  t.shape.literal ++ "(" ++ toString t.kind ++ ", " ++ t.span.literal ++ ")"

/-- The unit node of a symbol over a tree, which must be a leaf. -/
def unaryOver [ToString σ] (kind : σ) : Tree σ → Except Breach (Tree σ)
  | leaf l => .ok (unary kind l)
  | t => .error (.notLeaf t.literal)

/-- The binary node of a symbol over two trees, whose spans make up its own. -/
def branch (kind : σ) (left right : Tree σ) : Tree σ :=
  binary kind (left.span.followedBy right.span) left right

/-- The binary node of a symbol over two trees, which must meet. -/
def join (kind : σ) (left right : Tree σ) : Except Breach (Tree σ) :=
  if left.span.stop = right.span.start then .ok (branch kind left right)
  else .error (.notAdjacent left.span right.span)

/-- The unit node over the character at a position, a tooth of a comb. -/
def tooth (kind leafKind : σ) (position : Nat) : Tree σ :=
  unary kind ⟨leafKind, position⟩

/-- The comb over `n + 1` characters that grows from the left end: the right part of every
binary node is a tooth. -/
def leftComb (kind leafKind : σ) (n : Nat) : Tree σ :=
  ((List.range n).map fun i => tooth kind leafKind (i + 1)).foldl (branch kind)
    (tooth kind leafKind 0)

/-- The comb over `n + 1` characters that grows from the right end: the left part of every
binary node is a tooth. -/
def rightComb (kind leafKind : σ) (n : Nat) : Tree σ :=
  ((List.range n).map (tooth kind leafKind)).foldr (branch kind) (tooth kind leafKind n)

theorem nodeCount_pos (t : Tree σ) : 0 < t.nodeCount := by
  cases t <;> simp [nodeCount]

theorem totalCount_append (ts us : List (Tree σ)) :
    totalCount (ts ++ us) = totalCount ts + totalCount us := by
  induction ts with
  | nil => simp [totalCount]
  | cons t ts ih =>
    rw [List.cons_append, totalCount, totalCount, ih]
    omega

theorem totalCount_reverse (ts : List (Tree σ)) : totalCount ts.reverse = totalCount ts := by
  induction ts with
  | nil => rfl
  | cons t ts ih =>
    rw [List.reverse_cons, totalCount_append, ih, totalCount, totalCount, totalCount]
    omega

theorem nodeCount_eq (t : Tree σ) : t.nodeCount = totalCount t.children + 1 := by
  cases t <;> simp [nodeCount, children, totalCount]

theorem isContiguous_branch {kind : σ} {left right : Tree σ} :
    (branch kind left right).IsContiguous ↔
      left.span.stop = right.span.start ∧ left.IsContiguous ∧ right.IsContiguous := by
  simp [branch, IsContiguous]

theorem length_span_pos {t : Tree σ} (h : t.IsContiguous) : 0 < t.span.length := by
  induction t with
  | leaf l => simp [span, Leaf.span]
  | unary kind child => simp [span, Leaf.span]
  | binary kind s left right ihl ihr =>
    obtain ⟨⟨hs, -⟩, hl, hr⟩ := h
    have := ihl hl
    have := ihr hr
    subst hs
    show 0 < left.span.length + right.span.length
    omega

end Tree

end ChartParsing
