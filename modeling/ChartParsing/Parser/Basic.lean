import ChartParsing.Chart.Filling
import ChartParsing.NameTable
import ChartParsing.Parser.Failure

/-!
# Parsing texts

A parser is a grammar with a policy for competing splits and a limit on the length of the
text, beyond which nothing is filled. `parse` gives the first tree of the start symbol that
covers the text, `recognize` tells whether there is one, and `fill` shows the whole chart.
-/

namespace ChartParsing

/-- A grammar with the options for parsing. -/
structure Parser where
  grammar : Grammar Symbol
  policy : Policy Symbol
  maxLength : Option Int

/-- Why there is no answer for a text. -/
inductive ParseError where
  | breach (cause : Breach)
  | failure (cause : Failure)
  | unnamed (cause : LookupError)
deriving Repr

/-- The cause in words. -/
def ParseError.message : ParseError → String
  | breach cause => cause.message
  | failure cause => cause.message
  | unnamed cause => cause.message

/-- A tree or the reason why there is none, and what was told on the way. -/
structure ParseOutcome where
  result : Except ParseError (Tree Symbol)
  log : List LogEntry

/-- The text that a value is. -/
def textOf (v : Value) : Except ParseError String :=
  match v with
  | .str s => .ok s
  | v => .error (.breach (.notText v))

namespace Parser

/-- The handle of a character's name. -/
def characterSymbol (names : NameTable) (c : Char) : Option Symbol :=
  names.find? (String.singleton c)

/-- The filled chart of a text within the limit. -/
def fill (p : Parser) (names : NameTable) (text : String) : Except ParseError (Filling Symbol) :=
  match p.maxLength.filter fun limit : Int => decide (limit < text.length) with
  | some limit => .error (.failure (.ofLength text.length limit))
  | none =>
    (p.grammar.fill (characterSymbol names) p.policy text.toList).mapError .breach

/-- The tree that a filled chart gives, or the failure, and the last word on it. -/
def conclude (p : Parser) (names : NameTable) (chart : Chart (Cell Symbol)) :
    Except ParseError (Tree Symbol) × List LogEntry :=
  if chart.size = 0 then (.error (.failure (.ofEmpty chart)), [])
  else match names.resolve p.grammar.start with
    | .error e => (.error (.unnamed e), [])
    | .ok start =>
      match chart.top?.bind (·.lookup p.grammar.start) with
      | some root => (.ok root, [.parsed chart.size start])
      | none =>
        let failure := Failure.ofChart start chart
        (.error (.failure failure), [.failed failure.reason])

/-- The tree of a text. -/
def parse (p : Parser) (names : NameTable) (text : String) : ParseOutcome :=
  match p.fill names text with
  | .error e => ⟨.error e, []⟩
  | .ok f =>
    let conclusion := p.conclude names f.chart
    ⟨conclusion.1, f.log ++ conclusion.2⟩

/-- Whether a tree of the start symbol covers a text. -/
def recognize (p : Parser) (names : NameTable) (text : String) : Except ParseError Bool :=
  (p.fill names text).map fun f => f.chart.accepts p.grammar.start

/-- The tree of a value, which must be a text. -/
def parseValue (p : Parser) (names : NameTable) (v : Value) : ParseOutcome :=
  match textOf v with
  | .error e => ⟨.error e, []⟩
  | .ok text => p.parse names text

/-- The filled chart of a value, which must be a text. -/
def fillValue (p : Parser) (names : NameTable) (v : Value) : Except ParseError (Filling Symbol) :=
  (textOf v).bind (p.fill names)

/-- Whether a tree of the start symbol covers a value, which must be a text. -/
def recognizeValue (p : Parser) (names : NameTable) (v : Value) : Except ParseError Bool :=
  (textOf v).bind (p.recognize names)

end Parser

end ChartParsing
