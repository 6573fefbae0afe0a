import ChartParsing.GrammarText.Token

/-!
# Items of grammar text

Grammar text is a sequence of items: a start symbol, declarations of terminals or
nonterminals, and productions. While a text is read, a `Draft` holds the item under way. It
decides which tokens can come next: `accept` takes such a token in, and gives the items that
the token completed.
-/

namespace ChartParsing.GrammarText

/-- A symbol on the right side of a production. -/
inductive RightSymbol where
  | nonterminal (name : String)
  | terminal (value : String)
deriving DecidableEq, Repr

/-- The name of a symbol, whatever its kind. -/
def RightSymbol.text : RightSymbol → String
  | nonterminal name => name
  | terminal value => value

/-- A declaration or a production. -/
inductive Item where
  | start (name : String)
  | terminals (values : List String)
  | nonterminals (names : List String)
  | production (left : String) (alternatives : List (List RightSymbol))
deriving DecidableEq, Repr

/-- The item under way. Its lists have what was read last at the front. -/
inductive Draft where
  /-- No item is under way. -/
  | none
  | start
  | terminals (values : List String)
  | nonterminals (names : List String)
  | production (left : String)
  /-- After an arrow or a bar: the alternative has no symbol yet. -/
  | opened (left : String) (done : List (List RightSymbol))
  | alternative (left : String) (done : List (List RightSymbol)) (symbols : List RightSymbol)
deriving DecidableEq, Repr

namespace Draft

/-- The items that a draft comes to if no more of it follows. -/
def finish? : Draft → Option (List Item)
  | none => some []
  | start => Option.none
  | terminals values => some [.terminals values.reverse]
  | nonterminals names => some [.nonterminals names.reverse]
  | production _ => Option.none
  | opened .. => Option.none
  | alternative left done symbols => some [.production left (symbols.reverse :: done).reverse]

/-- The draft that a token begins. -/
def begin? : Token → Option Draft
  | .startKeyword => some start
  | .terminalsKeyword => some (terminals [])
  | .nonterminalsKeyword => some (nonterminals [])
  | .leftSide name => some (production name)
  | _ => Option.none

/-- The draft with a token that goes on with its item. -/
def extend? : Draft → Token → Option Draft
  | terminals values, .terminal value => some (terminals (value :: values))
  | nonterminals names, .name name => some (nonterminals (name :: names))
  | production left, .arrow => some (opened left [])
  | opened left done, .name name => some (alternative left done [.nonterminal name])
  | opened left done, .terminal value => some (alternative left done [.terminal value])
  | alternative left done symbols, .name name =>
    some (alternative left done (.nonterminal name :: symbols))
  | alternative left done symbols, .terminal value =>
    some (alternative left done (.terminal value :: symbols))
  | alternative left done symbols, .bar => some (opened left (symbols.reverse :: done))
  | _, _ => Option.none

/-- The items that a token completes and the draft after it, if the token can come next. -/
def accept (d : Draft) (token : Token) : Option (List Item × Draft) :=
  match d, token with
  | start, .name name => some ([.start name], none)
  | d, token =>
    match d.extend? token with
    | some d => some ([], d)
    | Option.none =>
      match d.finish?, begin? token with
      | some items, some d => some (items, d)
      | _, _ => Option.none

end Draft

end ChartParsing.GrammarText
