import ChartParsing.Grammar.Description

/-!
# Building a grammar step by step

A `Builder` collects declarations and rules in any order; a rule is a left side with
alternatives, each a sequence of names or one bare name. The collected parts are looked at
only when they are described as a whole, so a builder can be extended and built again.
-/

namespace ChartParsing

/-- One step of building. -/
inductive BuilderCall where
  | start (name : Value)
  | terminals (names : List Value)
  | nonterminals (names : List Value)
  | rule (left : Value) (alternatives : List Value)
deriving Repr

/-- What was collected so far. -/
structure Builder where
  start : Value
  terminals : List Value
  nonterminals : List Value
  rules : List (Value × List Value)
deriving Repr

namespace Builder

/-- The builder without declarations. -/
def empty : Builder := ⟨.null, [], [], []⟩

/-- Names the start symbol, in place of one named before. -/
def withStart (b : Builder) (name : Value) : Builder := { b with start := name }

/-- Declares terminals. -/
def withTerminals (b : Builder) (names : List Value) : Builder :=
  { b with terminals := b.terminals ++ names }

/-- Declares nonterminals. -/
def withNonterminals (b : Builder) (names : List Value) : Builder :=
  { b with nonterminals := b.nonterminals ++ names }

/-- The names of an alternative; a string is one bare name. -/
def alternative : Value → Except Mistyped (List Value)
  | .str s => .ok [.str s]
  | v => v.elements

/-- Adds a rule for each alternative, up to the first that is no sequence. -/
def addRules (b : Builder) (left : Value) : List Value → Except Mistyped Unit × Builder
  | [] => (.ok (), b)
  | v :: rest =>
    match alternative v with
    | .error e => (.error e, b)
    | .ok right => addRules { b with rules := b.rules ++ [(left, right)] } left rest

/-- A builder with a rule for each alternative, all of which are sequences of names. -/
def withRules (b : Builder) (left : String) (alternatives : List (List String)) : Builder :=
  { b with rules := b.rules ++ alternatives.map fun names => (.str left, names.map .str) }

/-- Applies a call. A call that fails keeps what it had collected before it failed. -/
def apply (b : Builder) : BuilderCall → Except Mistyped Unit × Builder
  | .start name => (.ok (), b.withStart name)
  | .terminals names => (.ok (), b.withTerminals names)
  | .nonterminals names => (.ok (), b.withNonterminals names)
  | .rule left alternatives => b.addRules left alternatives

/-- The builder after calls, none of which must fail. -/
def applyAll (b : Builder) : List BuilderCall → Except Mistyped Builder
  | [] => .ok b
  | call :: rest =>
    match b.apply call with
    | (.ok (), b) => b.applyAll rest
    | (.error e, _) => .error e

/-- The strings of a list, with the position of the first value that is none. -/
def joinable (position : Nat) : List Value → Except BuildError (List String)
  | [] => .ok []
  | .str s :: rest => (s :: ·) <$> joinable (position + 1) rest
  | v :: _ => .error (.mistyped (.notJoinable position v))

/-- Every right side has one or two symbols. -/
def checkLengths (rules : List (Value × List Value)) : Except BuildError Unit :=
  rules.forM fun (left, right) =>
    if right.length = 1 ∨ right.length = 2 then .ok ()
    else do .error (.flawed (.badLength left (← joinable 0 right)))

/-- Every declared value can be looked up among the others. -/
def checkNames (vs : List Value) : Except BuildError Unit :=
  match Value.firstMutable? vs with
  | some part => .error (.mistyped (.unhashable part))
  | none => .ok ()

/-- The rules of a length, each as a tuple of its left side and its right side. -/
def rulesOfLength (n : Nat) (rules : List (Value × List Value)) : List Value :=
  (rules.filter fun r => r.2.length == n).map fun r => .tuple (r.1 :: r.2)

/-- The description of what was collected. -/
def describe (b : Builder) : Except BuildError Description := do
  checkLengths b.rules
  checkNames b.terminals
  checkNames b.nonterminals
  return {
    start := b.start
    terminals := Value.dropRepeats b.terminals
    nonterminals := Value.dropRepeats b.nonterminals
    binary := rulesOfLength 2 b.rules
    unit := rulesOfLength 1 b.rules }

/-- The grammar of what was collected, over a name table. -/
def build (b : Builder) : Building :=
  Building.ofDescribed b.describe

end Builder

end ChartParsing
