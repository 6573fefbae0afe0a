import ChartParsing.FirstSeen

/-!
# Spans of a text

A span is a half-open interval of positions, given by its start and its length. Two spans
are equal when both agree, but their order looks at the length alone: spans are never sorted
by position, so the sorts here keep spans of one length in the order in which they came.
-/

namespace ChartParsing

/-- The positions from `start` up to, and without, `start + length`. -/
structure Span where
  start : Int
  length : Int
deriving DecidableEq, Repr

namespace Span

/-- The position after the last one. -/
def stop (s : Span) : Int := s.start + s.length

/-- A span as it is shown. -/
def literal (s : Span) : String :=
  "[" ++ toString s.start ++ "," ++ toString s.stop ++ ")"

instance : LT Span := ⟨fun a b => a.length < b.length⟩

instance : LE Span := ⟨fun a b => a.length ≤ b.length⟩

instance (a b : Span) : Decidable (a < b) := inferInstanceAs (Decidable (a.length < b.length))

instance (a b : Span) : Decidable (a ≤ b) := inferInstanceAs (Decidable (a.length ≤ b.length))

/-- The two parts of a span whose left one has length `k`. -/
def parts (s : Span) (k : Int) : Span × Span :=
  (⟨s.start, k⟩, ⟨s.start + k, s.length - k⟩)

/-- The span that begins like the first and is as long as both together. -/
def followedBy (s t : Span) : Span := ⟨s.start, s.length + t.length⟩

/-- Spans from the shortest to the longest. -/
def sortUp (spans : List Span) : List Span :=
  spans.mergeSort fun a b => decide (a ≤ b)

/-- Spans from the longest to the shortest. -/
def sortDown (spans : List Span) : List Span :=
  spans.mergeSort fun a b => decide (b ≤ a)

/-- The first of the shortest spans. -/
def shortest? : List Span → Option Span
  | [] => none
  | s :: rest => some (rest.foldl (fun best x => if x < best then x else best) s)

/-- The first of the longest spans. -/
def longest? : List Span → Option Span
  | [] => none
  | s :: rest => some (rest.foldl (fun best x => if best < x then x else best) s)

/-- How many different spans a list holds. -/
def countDistinct (spans : List Span) : Nat :=
  (FirstSeen.ofList spans).length

end Span

end ChartParsing
