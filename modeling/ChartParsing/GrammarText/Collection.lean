import ChartParsing.Grammar.Description
import ChartParsing.GrammarText.Reader

/-!
# From items to a grammar

The items of a grammar text are collected one after the other: every name counts as declared
where it first appears, on either side of a production as well as in a declaration. The
start symbol is the declared one, or else the left side of the first production.
-/

namespace ChartParsing.GrammarText

/-- What the items so far declare. -/
structure Collection where
  start : Option String
  firstLeft : Option String
  terminals : List String
  nonterminals : List String
  binary : List (String × String × String)
  unit : List (String × String)
deriving DecidableEq, Repr

namespace Collection

/-- The collection of no items. -/
def empty : Collection := ⟨none, none, [], [], [], []⟩

/-- Declares a nonterminal. -/
def addNonterminal (c : Collection) (name : String) : Collection :=
  { c with nonterminals := FirstSeen.add c.nonterminals name }

/-- Declares a terminal. -/
def addTerminal (c : Collection) (value : String) : Collection :=
  { c with terminals := FirstSeen.add c.terminals value }

/-- Declares a symbol as what it is. -/
def addSymbol (c : Collection) : RightSymbol → Collection
  | .nonterminal name => c.addNonterminal name
  | .terminal value => c.addTerminal value

/-- Adds a rule for an alternative of a left side, which must have one or two symbols. -/
def addAlternative (left : String) (c : Collection) (symbols : List RightSymbol) :
    Except Flaw Collection :=
  let c := symbols.foldl addSymbol c
  match symbols.map RightSymbol.text with
  | [a] => .ok { c with unit := c.unit ++ [(left, a)] }
  | [a, b] => .ok { c with binary := c.binary ++ [(left, a, b)] }
  | right => .error (.badLength (.str left) right)

/-- Adds what an item declares. -/
def addItem (c : Collection) : Item → Except Flaw Collection
  | .start name =>
    match c.start with
    | some first => .error (.secondStart first name)
    | none => .ok { c.addNonterminal name with start := some name }
  | .terminals values => .ok (values.foldl addTerminal c)
  | .nonterminals names => .ok (names.foldl addNonterminal c)
  | .production left alternatives =>
    let c := c.addNonterminal left
    let c := { c with firstLeft := c.firstLeft.or (some left) }
    alternatives.foldlM (addAlternative left) c

/-- The collection of a list of items. -/
def ofItems (items : List Item) : Except Flaw Collection :=
  items.foldlM addItem empty

/-- The description of a grammar that a collection gives. -/
def describe (c : Collection) : Except Flaw Description :=
  match c.start.or c.firstLeft with
  | some start => .ok {
      start := .str start
      terminals := c.terminals.map .str
      nonterminals := c.nonterminals.map .str
      binary := c.binary.map fun r => .tuple [.str r.1, .str r.2.1, .str r.2.2]
      unit := c.unit.map fun r => .tuple [.str r.1, .str r.2] }
  | none => .error .noStart

end Collection

/-- The description that a list of items gives. -/
def describeItems (items : List Item) : Except Flaw Description :=
  (Collection.ofItems items).bind Collection.describe

/-- The grammar of a list of items, over a name table. -/
def buildItems (items : List Item) : Building :=
  Building.ofDescribed ((describeItems items).mapError .flawed)

/-- The grammar of a text, over a name table. -/
def build (source : String) : Building :=
  Building.ofDescribed do
    let items ← (items source).mapError .unreadable
    (describeItems items).mapError .flawed

end ChartParsing.GrammarText
