import ChartParsing.Chart.Policy
import ChartParsing.Proofs.Steps

/-!
# Trees over related symbols

Two trees are related when they have the same shape over the same spans and related symbols;
cells, candidates and what policies choose are related when their trees are. Whether a policy
goes by shape alone is said by `Policy.Related`, of which the first and the last split to win are
instances.
-/

namespace ChartParsing

open List

variable {α β : Type} {R : α → β → Prop}

namespace Tree

/-- Trees of one shape over the same spans, with related symbols. -/
inductive Related (R : α → β → Prop) : Tree α → Tree β → Prop where
  | leaf {a : α} {b : β} {position : Int} (h : R a b) :
    Related R (leaf ⟨a, position⟩) (leaf ⟨b, position⟩)
  | unary {a t : α} {b u : β} {position : Int} (h : R a b) (hchild : R t u) :
    Related R (unary a ⟨t, position⟩) (unary b ⟨u, position⟩)
  | binary {a : α} {b : β} {span : Span} {x y : Tree α} {x' y' : Tree β} (h : R a b)
    (hleft : Related R x x') (hright : Related R y y') :
    Related R (binary a span x y) (binary b span x' y')

variable {t x y : Tree α} {u x' y' : Tree β}

theorem Related.kind (h : t.Related R u) : R t.kind u.kind := by
  cases h with
  | leaf h => exact h
  | unary h => exact h
  | binary h => exact h

theorem Related.span (h : t.Related R u) : t.span = u.span := by
  cases h <;> rfl

theorem Related.branch {a : α} {b : β} (h : R a b) (hleft : x.Related R x')
    (hright : y.Related R y') : (Tree.branch a x y).Related R (Tree.branch b x' y') := by
  rw [Tree.branch, Tree.branch, hleft.span, hright.span]
  exact .binary h hleft hright

end Tree

/-- Cells over one span, with related trees in the same order. -/
structure Cell.Related (R : α → β → Prop) (c : Cell α) (d : Cell β) : Prop where
  span : c.span = d.span
  nodes : Forall₂ (Tree.Related R) c.nodes d.nodes

/-- Candidates of one split, with related cells. -/
structure Candidate.Related (R : α → β → Prop) (c : Candidate α) (d : Candidate β) : Prop where
  split : c.split = d.split
  cell : c.cell.Related R d.cell

namespace Choice

/-- Choices of one kind, with related candidates or cells. -/
inductive Related (R : α → β → Prop) : Choice α → Choice β → Prop where
  | nothing : Related R nothing nothing
  | candidate {c : Candidate α} {d : Candidate β} (h : c.Related R d) :
    Related R (candidate c) (candidate d)
  | made {c : Cell α} {d : Cell β} (h : c.Related R d) : Related R (made c) (made d)

variable {c : Choice α} {d : Choice β}

theorem Related.cell? (h : c.Related R d) : Option.Rel (Cell.Related R) c.cell? d.cell? := by
  cases h with
  | nothing => exact .none
  | candidate h => exact .some h.cell
  | made h => exact .some h

theorem Related.split?_eq (h : c.Related R d) : c.split? = d.split? := by
  cases h with
  | nothing => rfl
  | candidate h => exact congrArg some h.split
  | made h => rfl

theorem related_ofCandidate? {c : Option (Candidate α)} {d : Option (Candidate β)}
    (h : Option.Rel (Candidate.Related R) c d) : (ofCandidate? c).Related R (ofCandidate? d) := by
  cases h with
  | some h => exact .candidate h
  | none => exact .nothing

end Choice

namespace Policy

/-- Policies that choose related things among related candidates. -/
def Related (R : α → β → Prop) (p : Policy α) (q : Policy β) : Prop :=
  ∀ ⦃cs ds⦄, Forall₂ (Candidate.Related R) cs ds → (p cs).Related R (q ds)

theorem leftmost_related (R : α → β → Prop) : Related R leftmost leftmost :=
  fun _ _ h => Choice.related_ofCandidate? (rel_head? h)

theorem rightmost_related (R : α → β → Prop) : Related R rightmost rightmost := by
  intro cs ds h
  rw [rightmost, rightmost, List.getLast?_eq_head?_reverse, List.getLast?_eq_head?_reverse]
  exact Choice.related_ofCandidate? (rel_head? (rel_reverse h))

end Policy

end ChartParsing
