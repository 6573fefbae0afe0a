import ChartParsing.Chart.Cell

/-!
# Policies for competing splits

A longer span can often be split in several places. A candidate holds the trees that one
split gives; a policy looks at the candidates of a span, in increasing order of the split,
and chooses what to commit: one of them, a cell it makes itself, or nothing.
-/

namespace ChartParsing

variable {σ : Type}

/-- The trees over a span whose left part has length `split`. -/
structure Candidate (σ : Type) where
  split : Int
  cell : Cell σ
deriving DecidableEq, Repr

/-- What a policy can choose. -/
inductive Choice (σ : Type) where
  | nothing
  | candidate (c : Candidate σ)
  | made (cell : Cell σ)
deriving DecidableEq, Repr

namespace Choice

/-- The cell chosen. -/
def cell? : Choice σ → Option (Cell σ)
  | nothing => none
  | candidate c => some c.cell
  | made cell => some cell

/-- The split of the candidate chosen. -/
def split? : Choice σ → Option Int
  | candidate c => some c.split
  | _ => none

/-- The choice of a candidate that may be missing. -/
def ofCandidate? : Option (Candidate σ) → Choice σ
  | some c => candidate c
  | none => nothing

end Choice

/-- A way to choose among the candidates of a span. -/
abbrev Policy (σ : Type) := List (Candidate σ) → Choice σ

namespace Policy

/-- The last split that gives anything wins. -/
def rightmost : Policy σ := fun cs => .ofCandidate? cs.getLast?

/-- The first split that gives anything wins. -/
def leftmost : Policy σ := fun cs => .ofCandidate? cs.head?

/-- The split in the middle of the list wins. -/
def middle : Policy σ := fun cs => .ofCandidate? cs[cs.length / 2]?

/-- No split wins. -/
def never : Policy σ := fun _ => .nothing

/-- A cell without trees is committed, if there are candidates. -/
def blank : Policy σ
  | [] => .nothing
  | c :: _ => .made (.emptyOver c.cell.span)

/-- The trees of all candidates are committed, in order. -/
def merge : Policy σ
  | [] => .nothing
  | c :: cs => .made ⟨c.cell.span, (c :: cs).flatMap (·.cell.nodes)⟩

/-- A policy that invents nothing: it chooses among its candidates, or makes a cell over
their span from their trees. -/
def IsHonest (p : Policy σ) : Prop :=
  ∀ cs, match p cs with
    | .nothing => True
    | .candidate c => c ∈ cs
    | .made cell => cell.nodes = [] ∨
        (∃ c ∈ cs, c.cell.span = cell.span) ∧ ∀ t ∈ cell.nodes, ∃ c ∈ cs, t ∈ c.cell.nodes

/-- A policy that chooses a candidate whenever there is one. -/
def IsSelective (p : Policy σ) : Prop :=
  ∀ cs, cs ≠ [] → ∃ c ∈ cs, p cs = .candidate c

theorem rightmost_isSelective : (rightmost : Policy σ).IsSelective := fun cs h =>
  ⟨cs.getLast h, List.getLast_mem h,
    by simp [rightmost, Choice.ofCandidate?, List.getLast?_eq_some_getLast h]⟩

theorem leftmost_isSelective : (leftmost : Policy σ).IsSelective := fun cs h =>
  ⟨cs.head h, List.head_mem h,
    by simp [leftmost, Choice.ofCandidate?, List.head?_eq_some_head h]⟩

end Policy

end ChartParsing
