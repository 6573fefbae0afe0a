import ChartParsing.Grammar.Basic
import ChartParsing.NameTable
import ChartParsing.Text.Quoted

/-!
# Listings of grammars

A listing writes a grammar by the names of its symbols: the start symbol, the declarations,
and a line for each rule. It is grammar text, which can be read again.
-/

namespace ChartParsing

/-- The text of a rule, for a way to tell terminals and to name symbols; the right side is
named first. -/
def Rule.textWith {τ ε : Type} (isTerminal : τ → Except ε Bool) (name : τ → Except ε String)
    (r : Rule τ) : Except ε String := do
  let right ← r.right.mapM fun x => do
    let quoted ← isTerminal x
    let s ← name x
    return if quoted then Text.quote s else s
  let left ← name r.left
  return left ++ " -> " ++ " ".intercalate right

namespace Grammar

/-- The text of a rule of the grammar. -/
def ruleText (g : Grammar Symbol) (names : NameTable) (r : Rule Symbol) :
    Except LookupError String :=
  r.textWith (fun x => .ok (g.isTerminal x)) names.resolve

/-- The text of a rule whose symbols are values of any type. -/
def looseRuleText (g : Grammar Symbol) (names : NameTable) (r : Rule Value) :
    Except LookupError String :=
  r.textWith (fun v => (v.lookupKey.map (·.any g.isTerminal)).mapError .mistyped)
    names.resolveValue

/-- The lines of a listing. -/
def listingLines (g : Grammar Symbol) (names : NameTable) : Except LookupError (List String) := do
  let start ← names.resolve g.start
  let terminals ← g.terminals.mapM names.resolve
  let nonterminals ← g.nonterminals.mapM names.resolve
  let rules ← g.rules.mapM (g.ruleText names)
  return ("start: " ++ start) ::
    ("terminals: " ++ " ".intercalate (terminals.map Text.quote)) ::
    ("nonterminals: " ++ " ".intercalate nonterminals) :: rules

/-- The listing of a grammar. -/
def listing (g : Grammar Symbol) (names : NameTable) : Except LookupError String :=
  "\n".intercalate <$> g.listingLines names

/-- A grammar as it is shown. -/
def literal (g : Grammar Symbol) (names : NameTable) : Except LookupError String := do
  return "<Grammar start=" ++ (← names.resolve g.start) ++ " rules=" ++ toString g.size ++ ">"

/-- Whether a name is the name of a symbol that the grammar declares. -/
def declaresName (g : Grammar Symbol) (names : NameTable) (name : String) : Bool :=
  (names.find? name).any g.declares

/-- Whether a value is the name of a symbol that the grammar declares. -/
def declaresValue (g : Grammar Symbol) (names : NameTable) (v : Value) : Except Mistyped Bool :=
  (names.findValue? v).map (·.any g.declares)

end Grammar

end ChartParsing
