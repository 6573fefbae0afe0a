/-!
# Errors in grammar text

A reader that cannot go on reports the text and the position at which it stopped. The report
shows the part of the line around that position, at most forty characters on either side,
and a caret under it.
-/

namespace ChartParsing.GrammarText

/-- A text that is no grammar text, and where that was noticed. -/
structure SyntaxError where
  source : List Char
  position : Nat
deriving DecidableEq, Repr

/-- The columns that characters take from a column on: a tabulator fills up to the next
multiple of eight, and a line end starts the count anew. -/
def columnsFrom (column : Nat) : List Char → Nat
  | [] => 0
  | c :: rest =>
    if c = '\t' then (8 - column % 8) + columnsFrom (column + (8 - column % 8)) rest
    else if c = '\n' ∨ c = '\r' then 1 + columnsFrom 0 rest
    else 1 + columnsFrom (column + 1) rest

/-- What follows the last line end of a text. -/
def lastLine (cs : List Char) : List Char :=
  (cs.reverse.takeWhile (· != '\n')).reverse

namespace SyntaxError

/-- The part of the line in front of the position. -/
def before (e : SyntaxError) : List Char :=
  lastLine ((e.source.take e.position).drop (e.position - 40))

/-- The part of the line from the position on. -/
def after (e : SyntaxError) : List Char :=
  ((e.source.drop e.position).take 40).takeWhile (· != '\n')

/-- The line around the position, and a caret under it. -/
def message (e : SyntaxError) : String :=
  "\n" ++ String.ofList (e.before ++ e.after) ++ "\n" ++
    String.ofList (List.replicate (columnsFrom 0 e.before) ' ') ++ "^\n"

end SyntaxError

end ChartParsing.GrammarText
