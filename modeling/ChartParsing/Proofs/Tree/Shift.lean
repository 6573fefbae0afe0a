import ChartParsing.Chart.Cell

/-!
# Trees at another place of a text

A tree is shifted by moving all its spans by one distance. This changes none of its symbols, and a
joined tree is shifted by shifting its parts (`Tree.branch_shift`), so it makes no difference
whether trees are shifted before they are joined and looked up or afterwards.
-/

namespace ChartParsing

variable {σ : Type}

/-- The span as long as this one that begins `d` positions later. -/
def Span.shift (d : Int) (s : Span) : Span := ⟨s.start + d, s.length⟩

/-- The leaf of the same symbol `d` positions later. -/
def Leaf.shift (d : Int) (l : Leaf σ) : Leaf σ := ⟨l.kind, l.position + d⟩

/-- The tree of the same symbols with all spans `d` positions later. -/
def Tree.shift (d : Int) : Tree σ → Tree σ
  | leaf l => leaf (l.shift d)
  | unary kind child => unary kind (child.shift d)
  | binary kind span left right => binary kind (span.shift d) (left.shift d) (right.shift d)

/-- The cell with all spans `d` positions later. -/
def Cell.shift (d : Int) (c : Cell σ) : Cell σ := ⟨c.span.shift d, c.nodes.map (Tree.shift d)⟩

variable {d : Int}

theorem Span.followedBy_shift (s t : Span) :
    (s.followedBy t).shift d = (s.shift d).followedBy (t.shift d) := rfl

namespace Tree

@[simp] theorem kind_shift (t : Tree σ) : (t.shift d).kind = t.kind := by
  cases t <;> rfl

@[simp] theorem span_shift (t : Tree σ) : (t.shift d).span = t.span.shift d := by
  cases t <;> rfl

/-- A joined tree is shifted by shifting its parts. -/
theorem branch_shift (a : σ) (left right : Tree σ) :
    (branch a left right).shift d = branch a (left.shift d) (right.shift d) := by
  rw [branch, branch, shift, Span.followedBy_shift, span_shift, span_shift]

end Tree

/-- The first tree of a symbol stays the first one when all are shifted. -/
theorem find?_map_shift [DecidableEq σ] (ts : List (Tree σ)) (a : σ) :
    (ts.map (Tree.shift d)).find? (fun t => decide (t.kind = a)) =
      (ts.find? fun t => decide (t.kind = a)).map (Tree.shift d) := by
  rw [List.find?_map]
  simp only [Function.comp_def, Tree.kind_shift]

end ChartParsing
