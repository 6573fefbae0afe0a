import ChartParsing.GrammarText.SyntaxError
import ChartParsing.Value

/-!
# What can be wrong with the description of a grammar

A `Flaw` is the first inconsistency found in a description; a `BuildError` says why no
grammar came out of it, which may also be that a value was of the wrong type or that the
text could not be read.
-/

namespace ChartParsing

/-- The inconsistencies of a description. -/
inductive Flaw where
  /-- A nonterminal is no string or the empty one. -/
  | badNonterminal (v : Value)
  /-- A terminal is no string of one character. -/
  | badTerminal (v : Value)
  /-- Some terminals are nonterminals as well. -/
  | declaredAsBoth (names : List String)
  /-- The start symbol is no nonterminal. -/
  | badStart (v : Value)
  /-- The left side of a rule is no nonterminal. -/
  | badLeft (rule : List Value)
  /-- A symbol on the right side of a rule is not declared. -/
  | undeclared (v : Value) (rule : List Value)
  /-- A binary rule does not have three symbols. -/
  | notBinary (rule : Value)
  /-- A binary rule expands to a terminal. -/
  | binaryToTerminal (v : Value) (rule : List Value)
  /-- A unit rule does not have two symbols. -/
  | notUnit (rule : Value)
  /-- A unit rule expands to a nonterminal. -/
  | unitToNonterminal (rule : List Value)
  /-- A right side has neither one nor two symbols. -/
  | badLength (left : Value) (right : List String)
  /-- A second start symbol is declared. -/
  | secondStart (first second : String)
  /-- There is nothing to take a start symbol from. -/
  | noStart
deriving Repr

namespace Flaw

/-- The left side, an arrow, and the right side with its symbols apart. -/
def ruleText : List Value → String
  | [] => ""
  | left :: right => left.text ++ " -> " ++ " ".intercalate (right.map Value.text)

/-- A flaw in words. -/
def message : Flaw → String
  | badNonterminal v => "non-terminal " ++ v.literal ++ " must be a non-empty string"
  | badTerminal v => "terminal " ++ v.literal ++ " must be a single character"
  | declaredAsBoth names => "declared as both terminal and non-terminal: " ++ ", ".intercalate names
  | badStart v => "start symbol " ++ v.literal ++ " is not a declared non-terminal"
  | badLeft rule => "left side of " ++ ruleText rule ++ " is not a declared non-terminal"
  | undeclared v rule => v.literal ++ " in " ++ ruleText rule ++ " is not a declared symbol"
  | notBinary rule => "binary rule must be (left, right1, right2), got " ++ rule.literal
  | binaryToTerminal v rule =>
    "binary rule " ++ ruleText rule ++ " rewrites to terminal " ++ v.literal
  | notUnit rule => "unit rule must be (left, terminal), got " ++ rule.literal
  | unitToNonterminal rule => "unit rule " ++ ruleText rule ++ " must rewrite to a terminal"
  | badLength left right =>
    "right side of " ++ left.text ++ " -> " ++ " ".intercalate right ++
      " must have one or two symbols"
  | secondStart first second => "start symbol declared twice: " ++ first ++ ", " ++ second
  | noStart => "grammar has no rules and no start symbol"

end Flaw

/-- Why no grammar could be built. -/
inductive BuildError where
  | flawed (flaw : Flaw)
  | mistyped (cause : Mistyped)
  | unreadable (cause : GrammarText.SyntaxError)
deriving Repr

/-- The cause in words. -/
def BuildError.message : BuildError → String
  | flawed flaw => flaw.message
  | mistyped cause => cause.message
  | unreadable cause => cause.message

end ChartParsing
