import ChartParsing.Groups

/-!
# Grammars in Chomsky normal form

Every rule of a grammar expands a nonterminal, either to one terminal (a unit rule) or to
two nonterminals (a binary rule). A `Grammar` keeps its rules grouped by their left sides,
and beside them three indexes that answer a parser's questions: which symbols expand to a
terminal, which symbols may follow a symbol, and which symbols expand to a pair. The laws
`mem_unitParents`, `mem_successorsAfter` and `mem_binaryParents` say that the indexes answer
from the declared rules, no more and no less.
-/

namespace ChartParsing

/-- What a grammar is built from: its symbols and rules, in order and with repetitions. -/
structure Declarations (σ : Type) where
  start : σ
  terminals : List σ
  nonterminals : List σ
  binary : List (σ × σ × σ)
  unit : List (σ × σ)
deriving DecidableEq, Repr

/-- A grammar in Chomsky normal form over symbols of type `σ`. -/
structure Grammar (σ : Type) where
  start : σ
  terminals : List σ
  nonterminals : List σ
  unitRules : Groups σ σ
  binaryRules : Groups σ (σ × σ)
  unitParentIndex : Groups σ σ
  successorIndex : Groups σ σ
  binaryParentIndex : Groups (σ × σ) σ
deriving DecidableEq, Repr

/-- A rule with a right side of any length. -/
structure Rule (σ : Type) where
  left : σ
  right : List σ
deriving DecidableEq, Repr

/-- Whether a rule expands to one symbol. -/
def Rule.isUnit {σ : Type} (r : Rule σ) : Bool := r.right.length == 1

/-- Whether a rule expands to two symbols. -/
def Rule.isBinary {σ : Type} (r : Rule σ) : Bool := r.right.length == 2

namespace Grammar

variable {σ : Type} [DecidableEq σ]

/-- The grammar of some declarations, with its indexes. -/
def ofDeclarations (d : Declarations σ) : Grammar σ :=
  let unitRules := Groups.ofPairs d.unit
  let binaryRules := Groups.ofPairs d.binary
  { start := d.start
    terminals := FirstSeen.ofList d.terminals
    nonterminals := FirstSeen.ofList d.nonterminals
    unitRules
    binaryRules
    unitParentIndex := Groups.ofPairs (unitRules.pairs.map fun p => (p.2, p.1))
    successorIndex := Groups.ofPairs (binaryRules.pairs.map fun p => p.2)
    binaryParentIndex := Groups.ofPairs (binaryRules.pairs.map fun p => (p.2, p.1)) }

/-- Whether a symbol is a terminal of the grammar. -/
def isTerminal (g : Grammar σ) (x : σ) : Bool := decide (x ∈ g.terminals)

/-- Whether a symbol is a nonterminal of the grammar. -/
def isNonterminal (g : Grammar σ) (x : σ) : Bool := decide (x ∈ g.nonterminals)

/-- Whether a symbol is declared in the grammar. -/
def declares (g : Grammar σ) (x : σ) : Bool := g.isTerminal x || g.isNonterminal x

/-- The symbols that expand to a terminal. -/
def unitParents (g : Grammar σ) (terminal : σ) : List σ := g.unitParentIndex.get terminal

/-- The symbols that stand after a symbol on the right side of some rule. -/
def successorsAfter (g : Grammar σ) (first : σ) : List σ := g.successorIndex.get first

/-- The symbols that expand to a pair. -/
def binaryParents (g : Grammar σ) (first second : σ) : List σ :=
  g.binaryParentIndex.get (first, second)

/-- The rules of one left side, the unit rules first. -/
def rulesFor (g : Grammar σ) (left : σ) : List (Rule σ) :=
  (g.unitRules.get left).map (fun t => ⟨left, [t]⟩) ++
    (g.binaryRules.get left).map (fun p => ⟨left, [p.1, p.2]⟩)

/-- All rules, by the order in which their left sides are declared. -/
def rules (g : Grammar σ) : List (Rule σ) :=
  g.nonterminals.flatMap g.rulesFor

omit [DecidableEq σ] in
/-- The number of rules. -/
def size (g : Grammar σ) : Nat := g.unitRules.size + g.binaryRules.size

/-- The first symbols of the right sides of a symbol's rules, without repetitions. -/
def first (g : Grammar σ) (left : σ) : List σ :=
  FirstSeen.ofList ((g.rules.filter fun r => decide (r.left = left)).filterMap (·.right.head?))

theorem mem_unitParents {d : Declarations σ} {a t : σ} :
    a ∈ (ofDeclarations d).unitParents t ↔ (a, t) ∈ d.unit := by
  simp only [unitParents, ofDeclarations, Groups.mem_get_ofPairs, List.mem_map]
  constructor
  · rintro ⟨p, hp, he⟩
    cases he
    exact Groups.mem_pairs_ofPairs.1 hp
  · intro h
    exact ⟨(a, t), Groups.mem_pairs_ofPairs.2 h, rfl⟩

theorem mem_successorsAfter {d : Declarations σ} {b c : σ} :
    c ∈ (ofDeclarations d).successorsAfter b ↔ ∃ a, (a, b, c) ∈ d.binary := by
  simp only [successorsAfter, ofDeclarations, Groups.mem_get_ofPairs, List.mem_map]
  constructor
  · rintro ⟨p, hp, he⟩
    obtain ⟨a, q⟩ := p
    cases he
    exact ⟨a, Groups.mem_pairs_ofPairs.1 hp⟩
  · rintro ⟨a, h⟩
    exact ⟨(a, b, c), Groups.mem_pairs_ofPairs.2 h, rfl⟩

theorem mem_binaryParents {d : Declarations σ} {a b c : σ} :
    a ∈ (ofDeclarations d).binaryParents b c ↔ (a, b, c) ∈ d.binary := by
  simp only [binaryParents, ofDeclarations, Groups.mem_get_ofPairs, List.mem_map]
  constructor
  · rintro ⟨p, hp, he⟩
    obtain ⟨a', q⟩ := p
    cases he
    exact Groups.mem_pairs_ofPairs.1 hp
  · intro h
    exact ⟨(a, b, c), Groups.mem_pairs_ofPairs.2 h, rfl⟩

end Grammar

end ChartParsing
