import ChartParsing.Grammar.Basic
import ChartParsing.Grammar.Flaw
import ChartParsing.NameTable

/-!
# Descriptions of grammars by name

A `Description` gives a grammar by the names of its symbols, in values of any type. `check`
turns it into `Declarations` over strings or names its first flaw, and only then are the
names given handles: `build` leaves a shared name table alone unless it succeeds.
-/

namespace ChartParsing

/-- A grammar as a caller describes it. -/
structure Description where
  start : Value
  terminals : List Value
  nonterminals : List Value
  binary : List Value
  unit : List Value
deriving Repr

namespace Description

/-- The description whose lists are given as values that must have elements. -/
def ofValues (start terminals nonterminals binary unit : Value) : Except Mistyped Description := do
  let terminals ← terminals.elements
  let nonterminals ← nonterminals.elements
  let binary ← binary.elements
  let unit ← unit.elements
  return { start, terminals, nonterminals, binary, unit }

/-- The name of a nonterminal, a string with a character in it. -/
def nonterminalName (v : Value) : Except BuildError String :=
  match v with
  | .str s => if s.isEmpty then .error (.flawed (.badNonterminal v)) else .ok s
  | v => .error (.flawed (.badNonterminal v))

/-- The name of a terminal, a string of one character. -/
def terminalName (v : Value) : Except BuildError String :=
  match v with
  | .str s => if s.length = 1 then .ok s else .error (.flawed (.badTerminal v))
  | v => .error (.flawed (.badTerminal v))

/-- A string among some names, or else a flaw. -/
def nameAmong (names : List String) (flaw : Flaw) (v : Value) : Except BuildError String :=
  match v with
  | .str s => if s ∈ names then .ok s else .error (.flawed flaw)
  | _ => .error (.flawed flaw)

/-- A symbol on the right side of a binary rule. -/
def binaryRight (terminals nonterminals : List String) (rule : List Value) (v : Value) :
    Except BuildError String := do
  let s ← nameAmong (terminals ++ nonterminals) (.undeclared v rule) v
  if s ∈ terminals then .error (.flawed (.binaryToTerminal v rule)) else .ok s

/-- A binary rule: a nonterminal and the two nonterminals that it expands to. -/
def binaryRule (terminals nonterminals : List String) (rule : Value) :
    Except BuildError (String × String × String) := do
  match ← rule.sized.mapError .mistyped with
  | [a, b, c] =>
    let left ← nameAmong nonterminals (.badLeft [a, b, c]) a
    let first ← binaryRight terminals nonterminals [a, b, c] b
    let second ← binaryRight terminals nonterminals [a, b, c] c
    return (left, first, second)
  | _ => .error (.flawed (.notBinary rule))

/-- A unit rule: a nonterminal and the terminal that it expands to. -/
def unitRule (terminals nonterminals : List String) (rule : Value) :
    Except BuildError (String × String) := do
  match ← rule.sized.mapError .mistyped with
  | [a, b] =>
    let left ← nameAmong nonterminals (.badLeft [a, b]) a
    let right ← nameAmong (terminals ++ nonterminals) (.undeclared b [a, b]) b
    if right ∈ terminals then return (left, right)
    else .error (.flawed (.unitToNonterminal [a, b]))
  | _ => .error (.flawed (.notUnit rule))

/-- The declarations that a description makes, if it is consistent. -/
def check (d : Description) : Except BuildError (Declarations String) := do
  let nonterminals ← d.nonterminals.mapM nonterminalName
  let terminals ← d.terminals.mapM terminalName
  let both := terminals.filter (· ∈ nonterminals)
  if !both.isEmpty then
    throw (.flawed (.declaredAsBoth both))
  let start ← nameAmong nonterminals (.badStart d.start) d.start
  let binary ← d.binary.mapM (binaryRule terminals nonterminals)
  let unit ← d.unit.mapM (unitRule terminals nonterminals)
  return { start, terminals, nonterminals, binary, unit }

end Description

namespace Declarations

/-- The declarations with handles for names, given out in the order of the declarations. -/
def intern (d : Declarations String) : StateM NameTable (Declarations Symbol) := do
  let start ← NameTable.intern d.start
  let terminals ← d.terminals.mapM NameTable.intern
  let nonterminals ← d.nonterminals.mapM NameTable.intern
  let binary ← d.binary.mapM fun (a, b, c) => do
    return (← NameTable.intern a, ← NameTable.intern b, ← NameTable.intern c)
  let unit ← d.unit.mapM fun (a, t) => do
    return (← NameTable.intern a, ← NameTable.intern t)
  return { start, terminals, nonterminals, binary, unit }

end Declarations

/-- What building a grammar over a name table comes to: a grammar or the reason why there is
none, and the table afterwards. -/
abbrev Building := NameTable → Except BuildError (Grammar Symbol) × NameTable

/-- The grammar of checked declarations, or the error that the check found. -/
def Building.ofChecked (checked : Except BuildError (Declarations String)) : Building :=
  fun names =>
    match checked with
    | .error e => (.error e, names)
    | .ok d =>
      let interned := d.intern.run names
      (.ok (Grammar.ofDeclarations interned.1), interned.2)

/-- The grammar of a description over a name table. -/
def Description.build (d : Description) : Building :=
  Building.ofChecked d.check

/-- The grammar of a description that may itself have failed. -/
def Building.ofDescribed (described : Except BuildError Description) : Building :=
  Building.ofChecked (described.bind Description.check)

end ChartParsing
