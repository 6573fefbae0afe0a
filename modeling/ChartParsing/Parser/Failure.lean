import ChartParsing.Chart.Basic
import ChartParsing.NameTable

/-!
# Failures to parse

A failure says why a text has no tree, with the diagnostics on its characters and the chart,
if one was filled.
-/

namespace ChartParsing

/-- The kinds of failure. -/
inductive FailureKind where
  /-- No tree of the start symbol covers the text. -/
  | notDerived
  /-- There is no text. -/
  | emptyInput
  /-- The text is longer than the limit. -/
  | tooLong
deriving DecidableEq, Repr

/-- Why a text has no tree. -/
structure Failure where
  kind : FailureKind
  reason : String
  diagnostics : List Diagnostic
  chart : Option (Chart (Cell Symbol))
deriving Repr

namespace Failure

/-- The failure of a chart that was filled without reaching the start symbol. -/
def ofChart (start : String) (chart : Chart (Cell Symbol)) : Failure where
  kind := .notDerived
  reason :=
    if chart.diagnostics.isEmpty then "no derivation of " ++ start ++ " covers the input"
    else toString chart.diagnostics.length ++ " unrecognized character(s)"
  diagnostics := chart.diagnostics
  chart := some chart

/-- The failure of the chart of no text. -/
def ofEmpty (chart : Chart (Cell Symbol)) : Failure :=
  ⟨.emptyInput, "empty input", chart.diagnostics, some chart⟩

/-- The failure of a text longer than the limit. -/
def ofLength (length limit : Int) : Failure :=
  ⟨.tooLong, "input has " ++ toString length ++ " characters; limit is " ++ toString limit, [],
    none⟩

/-- Whether the failure comes from characters of the text. -/
def isLexical (f : Failure) : Bool := !f.diagnostics.isEmpty

/-- The reason, and a line for each diagnostic. -/
def message (f : Failure) : String :=
  f.reason ++ String.join (f.diagnostics.map fun d => "\n  " ++ d.message)

end Failure

end ChartParsing
