import ChartParsing.Grammar.Derivation
import ChartParsing.Grammar.Samples
import ChartParsing.Proofs.Chart.Contests
import ChartParsing.Proofs.Chart.OneLetter
import ChartParsing.Proofs.Chart.Renaming
import ChartParsing.Proofs.Grammar.Acceptance
import ChartParsing.Proofs.Grammar.Atomicity
import ChartParsing.Proofs.Grammar.Interning
import ChartParsing.Proofs.Grammar.Language
import ChartParsing.Proofs.Grammar.Queries
import ChartParsing.Proofs.Grammar.Reversal
import ChartParsing.Proofs.GrammarText.BuilderCalls
import ChartParsing.Proofs.GrammarText.Composition
import ChartParsing.Proofs.GrammarText.Declaring
import ChartParsing.Proofs.GrammarText.Order
import ChartParsing.Proofs.GrammarText.Spacing
import ChartParsing.Proofs.NameTable.Answers
import ChartParsing.Proofs.Parser.Agreement
import ChartParsing.Proofs.Parser.CellSizes
import ChartParsing.Proofs.Parser.Combs
import ChartParsing.Proofs.Parser.Contests
import ChartParsing.Proofs.Parser.FirstTrees
import ChartParsing.Proofs.Parser.Forest
import ChartParsing.Proofs.Parser.Locality
import ChartParsing.Proofs.Parser.Numerals
import ChartParsing.Proofs.Parser.Parentheses
import ChartParsing.Proofs.Parser.ReadBack
import ChartParsing.Proofs.Parser.Recognition
import ChartParsing.Proofs.Parser.Refinement
import ChartParsing.Proofs.Parser.Reordering
import ChartParsing.Proofs.Parser.Reversal
import ChartParsing.Proofs.Parser.RoundTrip
import ChartParsing.Proofs.Parser.SafeFilling
import ChartParsing.Proofs.Parser.SameRules
import ChartParsing.Proofs.Parser.Shape
import ChartParsing.Proofs.Parser.SharedTables
import ChartParsing.Proofs.Parser.Soundness
import ChartParsing.Proofs.Text.Pattern
import ChartParsing.Proofs.Tree.Equality
import ChartParsing.Proofs.Tree.Outline
import ChartParsing.Proofs.Tree.Parse
import ChartParsing.Proofs.Tree.Walks
import ChartParsing.Session
import ChartParsing.Workbench
