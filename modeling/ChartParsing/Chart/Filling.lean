import ChartParsing.Chart.Basic
import ChartParsing.Chart.Policy
import ChartParsing.Grammar.Basic

/-!
# Filling the chart of a text

The chart is filled from the shortest spans to the longest, and spans of one length from
left to right. A span of one character gets the unit nodes over it. For a longer span, every
split whose two parts have trees is tried, each pair of a left and a right tree under every
binary rule that joins them; the policy chooses among the splits that give anything, and
what it chooses is committed. The symbols that can follow a left tree are looked up first,
so pairs that no rule joins are passed over. What is worth telling on the way goes to a log, in
the order in which it happens.

Every operation on spans, trees, cells and charts here is a checked one.
-/

namespace ChartParsing

/-- Something worth telling. -/
inductive LogEntry where
  /-- No rule accounts for the character at a position. -/
  | unrecognized (char : String) (position : Int)
  /-- More than one split of a span gives trees; `committed` is the one that was chosen. -/
  | competing (span : Span) (splits : List Int) (committed : Option Int)
  | parsed (length : Int) (start : String)
  | failed (reason : String)
deriving DecidableEq, Repr

/-- An entry in words. -/
def LogEntry.message : LogEntry → String
  | unrecognized char position =>
    "unrecognized character " ++ Text.literal char ++ " at " ++ toString position
  | competing span splits committed =>
    span.literal ++ ": " ++ toString splits.length ++ " competing splits [" ++
      ", ".intercalate (splits.map toString) ++ "], committed " ++
      match committed with
      | some k => toString k
      | none => "None"
  | parsed length start => "parsed " ++ toString length ++ " characters as " ++ start
  | failed reason => "parse failed: " ++ reason

variable {σ : Type} [DecidableEq σ] [ToString σ]

/-- The competition for one span: what the policy was shown, and what it chose. -/
structure Contest (σ : Type) where
  span : Span
  candidates : List (Candidate σ)
  choice : Choice σ
deriving DecidableEq, Repr

/-- The chart so far, the contests held for it and what was told on the way, the latest
contest and the latest entry of the log first. -/
structure Filling (σ : Type) where
  chart : Chart (Cell σ)
  latestContests : List (Contest σ)
  latestLog : List LogEntry
deriving DecidableEq, Repr

namespace Grammar

/-- The unit node of a symbol over the character of a span. -/
def unitNode (terminal : σ) (span : Span) (kind : σ) : Except Breach (Tree σ) := do
  Tree.unaryOver kind (.leaf (← Leaf.over terminal span))

/-- The cell of a character at a position, if some rule accounts for it. The symbol of a
character is found by `lookup`. -/
def characterCell (g : Grammar σ) (lookup : Char → Option σ) (position : Nat) (c : Char) :
    Except Breach (Option (Cell σ)) :=
  match lookup c with
  | none => .ok none
  | some terminal =>
    let parents := if g.isTerminal terminal then g.unitParents terminal else []
    if parents.isEmpty then .ok none
    else do
      let span : Span := ⟨position, 1⟩
      let nodes ← parents.mapM (unitNode terminal span)
      return some (← (Cell.emptyOver span).addAll nodes)

omit [ToString σ] in
/-- The ways to join a tree of the left cell and a tree of the right cell by a rule. -/
def joins (g : Grammar σ) (left right : Cell σ) : List (σ × Tree σ × Tree σ) :=
  left.nodes.flatMap fun x =>
    let next := g.successorsAfter x.kind
    if next.isEmpty then []
    else right.nodes.flatMap fun y =>
      if y.kind ∈ next then (g.binaryParents x.kind y.kind).map (·, x, y) else []

omit [ToString σ] in
/-- The candidate of a span for a length of its left part, if that split gives anything. -/
def candidateAt (g : Grammar σ) (chart : Chart (Cell σ)) (span : Span) (k : Int) :
    Except Breach (Option (Candidate σ)) := do
  let parts ← span.split k
  match chart.get? parts.1, chart.get? parts.2 with
  | some l, some r =>
    if l.isEmpty || r.isEmpty then return none
    let nodes ← (g.joins l r).mapM fun j => Tree.join j.1 j.2.1 j.2.2
    let cell ← (Cell.emptyOver span).addAll nodes
    return if cell.isEmpty then none else some ⟨k, cell⟩
  | _, _ => return none

/-- The lengths that the left part of a span can have. -/
def splitsOf (span : Span) : List Int :=
  (List.range (span.length.toNat - 1)).map fun k => ((k + 1 : Nat) : Int)

omit [ToString σ] in
/-- The candidates of a span, in increasing order of their splits. -/
def candidates (g : Grammar σ) (chart : Chart (Cell σ)) (span : Span) :
    Except Breach (List (Candidate σ)) := do
  let found ← (splitsOf span).mapM (g.candidateAt chart span)
  return found.filterMap id

/-- The spans of more than one character in a text of a size, from the shortest to the
longest and from left to right. -/
def longerSpans (size : Nat) : List Span :=
  (List.range (size - 1)).flatMap fun i =>
    (List.range (size - (i + 1))).map fun start => ⟨Int.ofNat start, Int.ofNat (i + 2)⟩

end Grammar

namespace Filling

/-- The filling of a text of a size before anything is known of it. -/
def start (size : Nat) : Filling σ := ⟨.empty size, [], []⟩

omit [DecidableEq σ] [ToString σ] in
/-- The contests in the order in which they were held. -/
def contests (f : Filling σ) : List (Contest σ) :=
  f.latestContests.reverse

omit [DecidableEq σ] [ToString σ] in
/-- What was told, in order. -/
def log (f : Filling σ) : List LogEntry :=
  f.latestLog.reverse

/-- Enters a character of the text at its position. -/
def enter (g : Grammar σ) (lookup : Char → Option σ) (f : Filling σ) (entry : Char × Nat) :
    Except Breach (Filling σ) := do
  match ← g.characterCell lookup entry.2 entry.1 with
  | some cell => return { f with chart := ← f.chart.commit cell.span cell }
  | none =>
    let char := String.singleton entry.1
    return { f with
      chart := f.chart.note (.unrecognized entry.2 char)
      latestLog := .unrecognized char entry.2 :: f.latestLog }

omit [DecidableEq σ] [ToString σ] in
/-- What is told of a contest that ended in a cell. -/
def contestLog (contest : Contest σ) : Option LogEntry :=
  if contest.candidates.length > 1 then
    some (.competing contest.span (contest.candidates.map (·.split)) contest.choice.split?)
  else none

omit [ToString σ] in
/-- Holds the contest for a span and commits what the policy chooses, unless that is nothing
or a cell without trees. -/
def combine (g : Grammar σ) (policy : Policy σ) (f : Filling σ) (span : Span) :
    Except Breach (Filling σ) := do
  let candidates ← g.candidates f.chart span
  let contest : Contest σ := ⟨span, candidates, policy candidates⟩
  let f := { f with latestContests := contest :: f.latestContests }
  match contest.choice.cell? with
  | none => return f
  | some cell =>
    if cell.isEmpty then return f
    return { f with
      chart := ← f.chart.commit cell.span cell
      latestLog := (contestLog contest).toList ++ f.latestLog }

end Filling

/-- The filled chart of a text, whose characters have the symbols that `lookup` gives. -/
def Grammar.fill (g : Grammar σ) (lookup : Char → Option σ) (policy : Policy σ)
    (text : List Char) : Except Breach (Filling σ) := do
  if text.isEmpty then
    return { Filling.start 0 with chart := (Chart.empty 0).note .noText }
  let f ← text.zipIdx.foldlM (Filling.enter g lookup) (Filling.start text.length)
  (Grammar.longerSpans text.length).foldlM (Filling.combine g policy) f

end ChartParsing
