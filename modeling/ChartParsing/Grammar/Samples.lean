import ChartParsing.Grammar.Builder

/-!
# Sample grammars

Three small grammars: numeric literals, balanced parentheses, and the most ambiguous grammar
of one letter.
-/

namespace ChartParsing.Builder

/-- The ten digits, each a name. -/
def digits : List String :=
  ["0", "1", "2", "3", "4", "5", "6", "7", "8", "9"]

/-- Declares nonterminals by their names. -/
def withNonterminalNames (b : Builder) (names : List String) : Builder :=
  b.withNonterminals (names.map .str)

/-- Declares terminals by their names. -/
def withTerminalNames (b : Builder) (names : List String) : Builder :=
  b.withTerminals (names.map .str)

/-- Numeric literals: digits, an optional fraction after a point, and after the fraction an
optional signed exponent if `exponent` says so. -/
def number (exponent : Bool) : Builder :=
  let each := digits.map fun d => [d]
  let b := empty.withStart (.str "Number")
    |>.withNonterminalNames ["Number", "N1", "Integer", "Fraction", "T1", "Scale", "N2", "T2",
      "Digit", "Sign"]
    |>.withTerminalNames (digits ++ [".", "+", "-"])
  let b := if exponent then b.withTerminalNames ["e"] else b
  let b := b.withRules "Number"
      (each ++ [["Integer", "Digit"], ["N1", "Scale"], ["Integer", "Fraction"]])
    |>.withRules "N1" [["Integer", "Fraction"]]
    |>.withRules "Integer" (each ++ [["Integer", "Digit"]])
    |>.withRules "Fraction" [["T1", "Integer"]]
    |>.withRules "T1" [["."]]
    |>.withRules "Scale" [["N2", "Integer"]]
    |>.withRules "N2" [["T2", "Sign"]]
  let b := if exponent then b.withRules "T2" [["e"]] else b
  b.withRules "Digit" each |>.withRules "Sign" [["+"], ["-"]]

/-- Balanced parentheses, at least one pair of them. -/
def balanced : Builder :=
  empty.withStart (.str "S")
    |>.withNonterminalNames ["S", "L", "R", "A"]
    |>.withTerminalNames ["(", ")"]
    |>.withRules "S" [["S", "S"], ["L", "R"], ["L", "A"]]
    |>.withRules "A" [["S", "R"]]
    |>.withRules "L" [["("]]
    |>.withRules "R" [[")"]]

/-- One or more letters `a`, bracketed in every way. -/
def ambiguous : Builder :=
  empty.withStart (.str "S")
    |>.withNonterminalNames ["S"]
    |>.withTerminalNames ["a"]
    |>.withRules "S" [["S", "S"], ["a"]]

end ChartParsing.Builder
