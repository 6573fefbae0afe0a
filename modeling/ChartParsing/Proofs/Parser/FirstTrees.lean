import ChartParsing.Proofs.Chart.FirstOfKind
import ChartParsing.Proofs.Parser.SameVerdicts

/-!
# Dropping all but the first trees

A parser that commits no more than the first tree of each symbol of the split that wins fills a
chart with the same spans, in which every symbol has the same first tree, and so it gives the same
verdicts on all texts, and the same trees.
-/

namespace ChartParsing

namespace Chart

variable {σ : Type} [DecidableEq σ] {a b : Chart (Cell σ)}

/-- Cells with the same first trees give the same tree of every symbol. -/
theorem bind_lookup_of_firstOfEachKind {cell cell' : Option (Cell σ)}
    (h : cell' = cell.map Cell.firstOfEachKind) (kind : σ) :
    cell'.bind (·.lookup kind) = cell.bind (·.lookup kind) := by
  subst h
  cases cell with
  | none => rfl
  | some c => exact c.lookup_firstOfEachKind kind

theorem top?_firstOfEachKind (hsize : b.size = a.size)
    (hget : ∀ s, b.get? s = (a.get? s).map Cell.firstOfEachKind) :
    b.top? = a.top?.map Cell.firstOfEachKind := by
  rw [top?, top?, hsize]
  split
  · rfl
  · exact hget _

end Chart

namespace Parser

/-- Two charts have the same spans, the same first tree of every symbol over each, and the same
diagnostics. -/
structure SameFirstTrees (a b : Chart (Cell Symbol)) : Prop where
  spans : b.spans = a.spans
  lookup : ∀ s kind, (b.get? s).bind (·.lookup kind) = (a.get? s).bind (·.lookup kind)
  diagnostics : b.diagnostics = a.diagnostics

/-- Under the first and under the last split to win, committing only the first tree of each symbol
of the winning split changes no span, no first tree of a symbol, no recognition, no parse tree and
no failure. -/
theorem sameVerdict_of_firstOfEachKind {p : Parser} {names : NameTable}
    (hg : p.grammar.IsBuiltOver names) (hp : p.policy = .rightmost ∨ p.policy = .leftmost)
    (text : String) :
    let q : Parser := { p with policy := p.policy.firstOfEachKind }
    ResultRel (· = ·) (fun f f' => SameFirstTrees f.chart f'.chart) (p.fill names text)
      (q.fill names text) ∧ SameVerdict (· = ·) p q names names text := by
  intro q
  have hplace : p.policy.PicksByPlace := by
    rcases hp with hp | hp
    · exact hp ▸ Policy.rightmost_picksByPlace
    · exact hp ▸ Policy.leftmost_picksByPlace
  have hstays : p.policy.StaysOver := by
    rcases hp with hp | hp
    · exact hp ▸ Policy.rightmost_isDecisive.staysOver
    · exact hp ▸ Policy.leftmost_isDecisive.staysOver
  by_cases ha : p.Admits text
  · obtain ⟨start, hstart⟩ := hg.exists_start
    obtain ⟨f, hfill, hf⟩ := exists_fill hg hstays ha
    obtain ⟨f', hfill', hf'⟩ := exists_fill (p := q) hg hstays.firstOfEachKind ha
    have hfirsts : f'.HasFirstsOf f := hf.hasFirstsOf hf' hg.reads.isIndexed hplace
    have htop := Chart.top?_firstOfEachKind hfirsts.size hfirsts.get?
    constructor
    · rw [hfill, hfill']
      exact .ok ⟨hfirsts.spans, fun s => Chart.bind_lookup_of_firstOfEachKind (hfirsts.get? s),
        hfirsts.diagnostics⟩
    · refine sameVerdict_of_fill hfill hfill' hstart hstart hfirsts.size.symm
        hfirsts.diagnostics.symm ?_
      rw [Chart.bind_lookup_of_firstOfEachKind htop p.grammar.start]
      cases f.chart.top?.bind (·.lookup p.grammar.start) with
      | none => exact .none
      | some root => exact .some rfl
  · obtain ⟨bound, hbound, hlt⟩ := exists_limit_of_not_admits ha
    have hfill : p.fill names text = .error _ := fill_of_limit_lt hbound hlt
    have hfill' : q.fill names text = .error _ := fill_of_limit_lt hbound hlt
    constructor
    · rw [hfill, hfill']
      exact .error rfl
    · exact sameVerdict_of_fill_eq_error hfill hfill'

/-- Two letters make a sentence in two ways by their only split. -/
def twoWays : Description where
  start := .str "S"
  terminals := [.str "a"]
  nonterminals := [.str "S", .str "A"]
  binary := [.tuple [.str "S", .str "A", .str "A"], .tuple [.str "S", .str "S", .str "S"]]
  unit := [.tuple [.str "A", .str "a"], .tuple [.str "S", .str "a"]]

/-- The cell over two letters has two trees of the start symbol, of which one is enough. -/
theorem two_ways_keep_first : ∃ g names, twoWays.build .empty = (.ok g, names) ∧
    g.IsBuiltOver names ∧ (ofGrammar g).policy = .rightmost ∧
    (((ofGrammar g).fill names "aa").toOption.bind fun f =>
      (f.chart.get? ⟨0, 2⟩).map fun c => c.kinds) = some [g.start, g.start] ∧
    SameVerdict (· = ·) (ofGrammar g) ⟨g, Policy.rightmost.firstOfEachKind, none⟩ names names
      "aa" := by
  have hb : twoWays.build .empty =
      (.ok (.ofDeclarations ⟨0, [1], [0, 2], [(0, 2, 2), (0, 0, 0)], [(2, 1), (0, 1)]⟩),
        ⟨["S", "a", "A"]⟩) := rfl
  have hg : (Grammar.ofDeclarations
      ⟨0, [1], [0, 2], [(0, 2, 2), (0, 0, 0)], [(2, 1), (0, 1)]⟩).IsBuiltOver ⟨["S", "a", "A"]⟩ :=
    ⟨_, _, _, hb, .refl _⟩
  refine ⟨_, _, hb, hg, rfl, by decide +kernel, ?_⟩
  exact (sameVerdict_of_firstOfEachKind (p := ofGrammar _) hg (.inl rfl) "aa").2

end Parser

end ChartParsing
