import ChartParsing.Span
import ChartParsing.Value

/-!
# Broken preconditions

Every checked operation on spans, trees, cells and charts refuses arguments that do not fit
together, and names the offending ones in a `Breach`.
-/

namespace ChartParsing

/-- The ways in which arguments can fail to fit together. -/
inductive Breach where
  /-- A span has no two non-empty parts with this length of the left one. -/
  | badSplit (k : Int)
  /-- A leaf covers exactly one character. -/
  | notOneCharacter (span : Span)
  /-- Only a leaf can stand under a unit rule; what stood there is shown. -/
  | notLeaf (shown : String)
  /-- The parts of a binary node do not meet. -/
  | notAdjacent (left right : Span)
  /-- A node does not cover the span of its cell. -/
  | foreignNode (node cell : Span)
  /-- A cell's span is taken in the chart, or reaches beyond it. -/
  | unfitCell (span : Span)
  /-- What was to be parsed is no text. -/
  | notText (v : Value)
deriving Repr

/-- The offending arguments, in words. -/
def Breach.message : Breach → String
  | badSplit k => toString k
  | notOneCharacter span => span.literal
  | notLeaf shown => shown
  | notAdjacent left right => "[" ++ left.literal ++ ", " ++ right.literal ++ "]"
  | foreignNode node cell => "[" ++ node.literal ++ ", " ++ cell.literal ++ "]"
  | unfitCell span => span.literal
  | notText v => "got " ++ v.typeName ++ ": " ++ v.literal

namespace Span

/-- The two parts of a span whose left one has length `k`, both of which must be non-empty. -/
def split (s : Span) (k : Int) : Except Breach (Span × Span) :=
  if 0 < k ∧ k < s.length then .ok (s.parts k) else .error (.badSplit k)

theorem split_eq_ok {s : Span} {k : Int} (h : 0 < k ∧ k < s.length) :
    s.split k = .ok (s.parts k) :=
  if_pos h

end Span

end ChartParsing
