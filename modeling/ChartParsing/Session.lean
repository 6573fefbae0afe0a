import ChartParsing.Bindings
import ChartParsing.Grammar.Builder
import ChartParsing.Grammar.Listing
import ChartParsing.GrammarText.Collection
import ChartParsing.Parser.Basic
import ChartParsing.Tree.Outline

/-!
# Sessions over shared name tables

In a session several grammars can share one name table, which grows while they are built
and used. Tables, grammars, builders, parsers and trees go by names, and a failed operation
binds no name. An operation that is given no table works on a fresh one; the table that it
is given is looked up before any other object.
-/

namespace ChartParsing

/-- What a name in a session stands for; tables are shared by their numbers. -/
inductive SessionObject where
  | table (number : Nat)
  | grammar (g : Grammar Symbol) (table : Nat)
  | builder (b : Builder) (table : Option Nat)
  | parser (p : Parser) (table : Nat)
  | node (t : Tree Symbol)

/-- The named objects, and the tables by their numbers. -/
structure Session where
  tables : List NameTable
  objects : Bindings SessionObject

/-- Why an operation in a session failed. -/
inductive SessionError where
  | unbound (name : String)
  /-- The operation is not for the kind of object that a name stands for. -/
  | unsuitable (name : String)
  | mistyped (cause : Mistyped)
  | unbuilt (cause : BuildError)
  | unparsed (cause : ParseError)
  | unnamed (cause : LookupError)
deriving Repr

/-- The cause in words. -/
def SessionError.message : SessionError → String
  | unbound name => name
  | unsuitable name => "unsuitable object: " ++ name
  | mistyped cause => cause.message
  | unbuilt cause => cause.message
  | unparsed cause => cause.message
  | unnamed cause => cause.message

/-- An operation in a session. -/
abbrev SessionStep := ExceptT SessionError (StateM Session)

namespace Session

/-- The session without objects. -/
def empty : Session := ⟨[], .empty⟩

/-- The table of a number. -/
def tableAt (s : Session) (number : Nat) : NameTable :=
  s.tables[number]?.getD .empty

end Session

namespace SessionStep

/-- A result, or the error that stands for its cause. -/
def orThrow {ε α : Type} (wrap : ε → SessionError) (r : Except ε α) : SessionStep α :=
  match r with
  | .ok a => pure a
  | .error cause => throw (wrap cause)

/-- The object that a name stands for. -/
def object (name : String) : SessionStep SessionObject := do
  match (← get).objects.get? name with
  | some o => return o
  | none => throw (.unbound name)

/-- Lets a name stand for an object. -/
def bind (name : String) (o : SessionObject) : SessionStep Unit :=
  modify fun s => { s with objects := s.objects.set name o }

/-- The table of a number. -/
def names (number : Nat) : SessionStep NameTable := do
  return (← get).tableAt number

/-- Replaces the table of a number. -/
def setNames (number : Nat) (t : NameTable) : SessionStep Unit :=
  modify fun s => { s with tables := s.tables.set number t }

/-- The number of a fresh table. -/
def freshTable (t : NameTable) : SessionStep Nat := do
  let number := (← get).tables.length
  modify fun s => { s with tables := s.tables ++ [t] }
  return number

/-- The number of the table that a name stands for, if a name is given. -/
def tableNumber? (name : Option String) : SessionStep (Option Nat) := do
  match name with
  | none => return none
  | some name =>
    match ← object name with
    | .table number => return some number
    | _ => throw (.unsuitable name)

/-- The number of the table that a name stands for, or of a fresh one. -/
def tableNumber (name : Option String) : SessionStep Nat := do
  match ← tableNumber? name with
  | some number => return number
  | none => freshTable .empty

/-- The grammar that a name stands for, with the number of its table. -/
def grammar (name : String) : SessionStep (Grammar Symbol × Nat) := do
  match ← object name with
  | .grammar g table => return (g, table)
  | _ => throw (.unsuitable name)

/-- The parser that a name stands for, with its table. -/
def parser (name : String) : SessionStep (Parser × NameTable) := do
  match ← object name with
  | .parser p table => return (p, ← names table)
  | _ => throw (.unsuitable name)

/-- The builder that a name stands for, with the number of its table. -/
def builder (name : String) : SessionStep (Builder × Option Nat) := do
  match ← object name with
  | .builder b table => return (b, table)
  | _ => throw (.unsuitable name)

/-- The tree that a name stands for. -/
def node (name : String) : SessionStep (Tree Symbol) := do
  match ← object name with
  | .node t => return t
  | _ => throw (.unsuitable name)

/-- Makes a table of the names that are the elements of a value. -/
def makeTable (name : String) (init : Value) : SessionStep NameTable := do
  let t ← orThrow .mistyped (NameTable.ofValue init)
  bind name (.table (← freshTable t))
  return t

/-- Makes a grammar over the table of a number. -/
def makeGrammarOver (name : String) (build : Building) (table : Nat) :
    SessionStep (Grammar Symbol × NameTable) := do
  let (result, t) := build (← names table)
  setNames table t
  let g ← orThrow .unbuilt result
  bind name (.grammar g table)
  return (g, t)

/-- Makes a grammar over a table. -/
def makeGrammar (name : String) (build : Building) (table : Option String) :
    SessionStep (Grammar Symbol × NameTable) := do
  makeGrammarOver name build (← tableNumber table)

/-- Makes a grammar from the listing of another, over a table. -/
def reread (name source : String) (table : Option String) :
    SessionStep (Grammar Symbol × NameTable) := do
  let target ← tableNumber table
  let (g, number) ← grammar source
  let listing ← orThrow .unnamed (g.listing (← names number))
  makeGrammarOver name (GrammarText.build listing) target

/-- Makes a builder over a table, which is chosen anew for each build if none is given. -/
def makeBuilder (name : String) (table : Option String) : SessionStep Unit := do
  bind name (.builder .empty (← tableNumber? table))

/-- Applies a call to a builder. -/
def callBuilder (name : String) (call : BuilderCall) : SessionStep Unit := do
  let (b, table) ← builder name
  let (result, b) := b.apply call
  bind name (.builder b table)
  orThrow .mistyped result

/-- Makes a grammar of what a builder collected. -/
def buildFrom (name source : String) : SessionStep (Grammar Symbol × NameTable) := do
  let (b, table) ← builder source
  let table ← match table with
    | some number => pure number
    | none => freshTable .empty
  makeGrammarOver name b.build table

/-- Makes a parser for a grammar. -/
def makeParser (name source : String) (policy : Policy Symbol) (maxLength : Option Int) :
    SessionStep Unit := do
  let (g, table) ← grammar source
  bind name (.parser ⟨g, policy, maxLength⟩ table)

/-- The tree of a text by a parser, which may get a name. -/
def parse (source : String) (text : Value) (name : Option String) :
    SessionStep (Tree Symbol × NameTable) := do
  let (p, t) ← parser source
  let tree ← orThrow .unparsed (p.parseValue t text).result
  match name with
  | some name => bind name (.node tree)
  | none => pure ()
  return (tree, t)

/-- Whether a parser has a tree for a text. -/
def recognize (source : String) (text : Value) : SessionStep Bool := do
  let (p, t) ← parser source
  orThrow .unparsed (p.recognizeValue t text)

/-- The chart that a parser fills for a text. -/
def fill (source : String) (text : Value) : SessionStep (Chart (Cell Symbol)) := do
  let (p, t) ← parser source
  return (← orThrow .unparsed (p.fillValue t text)).chart

/-- The table that a name stands for, or a fresh one. -/
def table (name : Option String) : SessionStep NameTable := do
  names (← tableNumber name)

/-- The text under a tree, by the names of a table. -/
def text (name : String) (tableName : Option String) : SessionStep String := do
  let names ← table tableName
  orThrow .unnamed ((← node name).text names)

/-- The outline of a tree, by the names of a table. -/
def outline (style : Tree.OutlineStyle) (name : String) (tableName : Option String) :
    SessionStep String := do
  let names ← table tableName
  orThrow .unnamed ((← node name).outline style names)

end SessionStep

end ChartParsing
