import ChartParsing.Bindings
import ChartParsing.Chart.Basic
import ChartParsing.Tree.Equality
import ChartParsing.Tree.Outline

/-!
# A workbench for trees, cells and charts

On a workbench trees, cells and charts are built piece by piece under names. A cell can be
committed to several charts and still be added to: what is added shows in every chart that
holds the cell. An operation that fails leaves all names as they were.
-/

namespace ChartParsing

/-- What a name on a workbench stands for; cells are shared, so a chart and a name can hold
the same one. -/
inductive BenchObject where
  | node (t : Tree Symbol)
  | cell (number : Nat)
  | chart (ch : Chart Nat)

/-- The named objects, the cells by their numbers, and the names of symbols. -/
structure Workbench where
  names : NameTable
  cells : List (Cell Symbol)
  objects : Bindings BenchObject

/-- Why an operation on a workbench failed. -/
inductive BenchError where
  | unbound (name : String)
  /-- The operation is not for the kind of object that a name stands for. -/
  | unsuitable (name : String)
  | breach (cause : Breach)
  | unnamed (cause : LookupError)
  /-- A chart has no cell over a span. -/
  | noCell (span : Span)
deriving Repr

/-- The cause in words. -/
def BenchError.message : BenchError → String
  | unbound name => name
  | unsuitable name => "unsuitable object: " ++ name
  | breach cause => cause.message
  | unnamed cause => cause.message
  | noCell span => span.literal

/-- An operation on a workbench. -/
abbrev Bench := ExceptT BenchError (StateM Workbench)

namespace Workbench

/-- The workbench without objects, for symbols with names. -/
def ofNames (names : NameTable) : Workbench := ⟨names, [], .empty⟩

/-- The cell of a number. -/
def cellAt (w : Workbench) (number : Nat) : Cell Symbol :=
  w.cells[number]?.getD (.emptyOver ⟨0, 0⟩)

/-- A chart with the cells that it holds as they are now. -/
def chartNow (w : Workbench) (ch : Chart Nat) : Chart (Cell Symbol) :=
  ch.map w.cellAt

/-- An object as it is shown. -/
def literalOf (w : Workbench) : BenchObject → String
  | .node t => t.literal
  | .cell number => (w.cellAt number).literal
  | .chart ch => ch.literal

end Workbench

namespace Bench

/-- The result of a checked operation. -/
def checked {α : Type} (r : Except Breach α) : Bench α :=
  match r with
  | .ok a => pure a
  | .error cause => throw (.breach cause)

/-- The result of a look-up of names. -/
def named {α : Type} (r : Except LookupError α) : Bench α :=
  match r with
  | .ok a => pure a
  | .error cause => throw (.unnamed cause)

/-- The object that a name stands for. -/
def object (name : String) : Bench BenchObject := do
  match (← get).objects.get? name with
  | some o => return o
  | none => throw (.unbound name)

/-- Lets a name stand for an object. -/
def bind (name : String) (o : BenchObject) : Bench Unit :=
  modify fun w => { w with objects := w.objects.set name o }

/-- The tree that a name stands for. -/
def node (name : String) : Bench (Tree Symbol) := do
  match ← object name with
  | .node t => return t
  | _ => throw (.unsuitable name)

/-- The number of the cell that a name stands for. -/
def cellNumber (name : String) : Bench Nat := do
  match ← object name with
  | .cell number => return number
  | _ => throw (.unsuitable name)

/-- The cell that a name stands for. -/
def cell (name : String) : Bench (Cell Symbol) := do
  let number ← cellNumber name
  return (← get).cellAt number

/-- The chart that a name stands for, by the numbers of its cells. -/
def chartNumbers (name : String) : Bench (Chart Nat) := do
  match ← object name with
  | .chart ch => return ch
  | _ => throw (.unsuitable name)

/-- The chart that a name stands for, with its cells as they are now. -/
def chart (name : String) : Bench (Chart (Cell Symbol)) := do
  let ch ← chartNumbers name
  return (← get).chartNow ch

/-- What a name stands for, as it is shown. -/
def literal (name : String) : Bench String := do
  let o ← object name
  return (← get).literalOf o

/-- The number of trees of a cell, or of cells of a chart. -/
def size (name : String) : Bench Nat := do
  match ← object name with
  | .cell number => return ((← get).cellAt number).nodes.length
  | .chart ch => return ch.latest.length
  | .node _ => throw (.unsuitable name)

/-- Lets a name stand for a tree. -/
def bindNode (name : String) (t : Tree Symbol) : Bench Unit :=
  bind name (.node t)

/-- Makes a leaf over a span. -/
def makeLeaf (name : String) (kind : Symbol) (span : Span) : Bench Unit := do
  bindNode name (.leaf (← checked (Leaf.over kind span)))

/-- Makes a unit node over an object, which must be a leaf. -/
def makeUnary (name : String) (kind : Symbol) (child : String) : Bench Unit := do
  match ← object child with
  | .node t => bindNode name (← checked (Tree.unaryOver kind t))
  | o => throw (.breach (.notLeaf ((← get).literalOf o)))

/-- Makes a binary node over two trees. -/
def makeBinary (name : String) (kind : Symbol) (left right : String) : Bench Unit := do
  let l ← node left
  let r ← node right
  bindNode name (← checked (Tree.join kind l r))

/-- Makes a cell over a span, with trees. -/
def makeCell (name : String) (span : Span) (nodes : List String) : Bench Unit := do
  let ts ← nodes.mapM node
  let c ← checked ((Cell.emptyOver span).addAll ts)
  let number := (← get).cells.length
  modify fun w => { w with cells := w.cells ++ [c] }
  bind name (.cell number)

/-- Makes a chart for a text of a size. -/
def makeChart (name : String) (size : Int) : Bench Unit :=
  bind name (.chart (.empty size))

/-- Adds a tree to a cell, wherever the cell is held. -/
def addNode (name nodeName : String) : Bench Unit := do
  let number ← cellNumber name
  let t ← node nodeName
  let c ← checked (((← get).cellAt number).add t)
  modify fun w => { w with cells := w.cells.set number c }

/-- Commits a cell to a chart. -/
def commit (name cellName : String) : Bench Unit := do
  let ch ← chartNumbers name
  let number ← cellNumber cellName
  let span := ((← get).cellAt number).span
  bind name (.chart (← checked (ch.commit span number)))

/-- The cell of a chart over a span, which must have one. -/
def cellOver (name : String) (span : Span) : Bench (Cell Symbol) := do
  match (← chart name).get? span with
  | some c => return c
  | none => throw (.noCell span)

/-- The text under a tree. -/
def text (name : String) : Bench String := do
  named ((← node name).text (← get).names)

/-- The name of the symbol at the root of a tree. -/
def label (name : String) : Bench String := do
  named ((← node name).label (← get).names)

/-- The outline of a tree. -/
def outline (style : Tree.OutlineStyle) (name : String) : Bench String := do
  let t ← node name
  named (t.outline style (← get).names)

end Bench

end ChartParsing
