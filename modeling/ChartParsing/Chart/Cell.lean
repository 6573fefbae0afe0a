import ChartParsing.Tree.Basic

/-!
# Cells of a chart

A cell holds the trees that were kept for one span, in the order in which they were found.
Trees of one symbol may occur more than once in it; `lookup` takes the first.
-/

namespace ChartParsing

variable {σ : Type}

/-- The trees kept over one span. -/
structure Cell (σ : Type) where
  span : Span
  nodes : List (Tree σ)
deriving DecidableEq, Repr

namespace Cell

/-- The cell of a span without trees. -/
def emptyOver (span : Span) : Cell σ := ⟨span, []⟩

/-- Whether a cell holds no tree. -/
def isEmpty (c : Cell σ) : Bool := c.nodes.isEmpty

/-- Adds a tree, which must cover the span of the cell. -/
def add (c : Cell σ) (t : Tree σ) : Except Breach (Cell σ) :=
  if t.span = c.span then .ok { c with nodes := c.nodes ++ [t] }
  else .error (.foreignNode t.span c.span)

/-- Adds the trees of a list, all of which must cover the span of the cell. -/
def addAll (c : Cell σ) (ts : List (Tree σ)) : Except Breach (Cell σ) :=
  match ts.find? fun t => decide (t.span ≠ c.span) with
  | some t => .error (.foreignNode t.span c.span)
  | none => .ok { c with nodes := c.nodes ++ ts }

/-- The symbols of the trees, in order and with their repetitions. -/
def kinds (c : Cell σ) : List σ := c.nodes.map Tree.kind

/-- The first tree of a symbol. -/
def lookup [DecidableEq σ] (c : Cell σ) (kind : σ) : Option (Tree σ) :=
  c.nodes.find? fun t => decide (t.kind = kind)

/-- Whether a cell holds a tree of a symbol. -/
def has [DecidableEq σ] (c : Cell σ) (kind : σ) : Bool :=
  (c.lookup kind).isSome

/-- A cell as it is shown. -/
def literal [ToString σ] (c : Cell σ) : String :=
  "Cell(" ++ c.span.literal ++ ", [" ++ ", ".intercalate (c.nodes.map Tree.literal) ++ "])"

theorem has_iff [DecidableEq σ] {c : Cell σ} {kind : σ} : c.has kind = true ↔ kind ∈ c.kinds := by
  simp [has, lookup, kinds]

theorem addAll_eq_ok {c : Cell σ} {ts : List (Tree σ)} (h : ∀ t ∈ ts, t.span = c.span) :
    c.addAll ts = .ok { c with nodes := c.nodes ++ ts } := by
  have hn : (ts.find? fun t => decide (t.span ≠ c.span)) = none := by
    rw [List.find?_eq_none]
    intro t ht
    simp [h t ht]
  rw [addAll, hn]

end Cell

end ChartParsing
