import ChartParsing.Proofs.Chart.CellSizes
import ChartParsing.Proofs.Parser.Refinement

/-!
# How large the cells of a chart are

A parser with a shipped policy commits the trees of one split for each span, and these can be many
trees of one symbol: no cell has a symbol twice exactly when no split that is committed has a symbol
that expands to two pairs of the symbols in its two cells. Where everything joins everything the
cells grow exponentially with the length of their spans, and no further than that
(`Parser.sizes_of_cells`).
-/

namespace ChartParsing

namespace Filling

/-- The trees that a chart shows over the `l` characters from position `i`. -/
def shownTrees (f : Filling Symbol) (i l : Nat) : List (Tree Symbol) :=
  f.chart.treesOn ⟨i, l⟩

/-- The symbols of these trees. -/
def shownKinds (f : Filling Symbol) (i l : Nat) : List Symbol :=
  (f.shownTrees i l).map Tree.kind

/-- Every cell has at most one tree of each symbol, and no more trees than there are
nonterminals. -/
def HasSmallCells (f : Filling Symbol) (g : Grammar Symbol) : Prop :=
  ∀ s cell, f.chart.get? s = some cell →
    cell.kinds.Nodup ∧ cell.nodes.length ≤ g.nonterminals.length

/-- No split that is committed has a symbol that expands to two pairs of the symbols on its
sides. -/
def JoinsNothingTwice (f : Filling Symbol) (g : Grammar Symbol) : Prop :=
  ∀ i l k, g.IsJoinedBy f.shownTrees i l k →
    g.JoinsOnce (f.shownKinds i k) (f.shownKinds (i + k) (l - k))

end Filling

namespace Grammar

variable {g : Grammar Symbol} {names : NameTable}

/-- A built grammar is sound, and lists each nonterminal once. -/
theorem IsBuiltOver.isSound (hg : g.IsBuiltOver names) : g.IsSound ∧ g.nonterminals.Nodup := by
  obtain ⟨c, c', hconsistent, hread, rfl⟩ := hg.exists_declarations
  exact ⟨isSound_ofDeclarations (hread.isSound hconsistent.toIsSound), FirstSeen.nodup_ofList _⟩

end Grammar

namespace Parser

variable {p : Parser} {names : NameTable} {text : String} {f : Filling Symbol}

section Shown

variable (hg : p.grammar.IsBuiltOver names) {order : Int → Int → Prop}
variable (hp : p.policy.Prefers order) (hf : p.Fills names text f)

include hg hp hf

/-- A chart shows the trees of the recurrence, within the text and beyond it. -/
theorem Fills.shownTrees_eq : f.shownTrees = p.treesAt names text := by
  funext i l
  by_cases hi : i + l ≤ text.toList.length
  · exact hf.treesOn_eq hi
  · have hs : (⟨i, l⟩ : Span) ∉ Grammar.spansOf text.toList.length := by
      intro hs
      obtain ⟨j, m, -, hj, he⟩ := Grammar.mem_spansOf.1 hs
      rw [Span.mk.injEq] at he
      omega
    have hnone : p.treesAt names text i l = [] :=
      Grammar.treesAt_eq_nil hg.reads hp.decisive.onlyPicks (Nat.lt_of_not_le hi)
    exact (hf.treesOn_eq_nil hs).trans hnone.symm

/-- The cells are small when no symbol is shown twice over a span. -/
theorem Fills.hasSmallCells_iff :
    f.HasSmallCells p.grammar ↔ ∀ i l, ((p.treesAt names text i l).map Tree.kind).Nodup := by
  constructor
  · intro hsmall i l
    rw [← Fills.shownTrees_eq hg hp hf, Filling.shownTrees, Chart.treesOn]
    cases hcell : f.chart.get? ⟨i, l⟩ with
    | none => exact List.nodup_nil
    | some cell => exact (hsmall _ cell hcell).1
  · intro hnodup s cell hcell
    obtain ⟨i, l, -, -, -, -, rfl⟩ := hf.get?_eq_some_iff.1 hcell
    refine ⟨hnodup i l, ?_⟩
    -- symbols without repetitions are no more than the nonterminals
    have hkinds : ((p.treesAt names text i l).map Tree.kind) ⊆ p.grammar.nonterminals := by
      intro a ha
      obtain ⟨t, ht, rfl⟩ := List.mem_map.1 ha
      exact hg.isSound.1.kind_mem hp.decisive.onlyPicks ht
    have hlength := ((hnodup i l).subperm hkinds).length_le
    rwa [List.length_map] at hlength

/-- They are small exactly when no split that is committed joins a symbol twice. -/
theorem Fills.hasSmallCells_iff_joinsNothingTwice :
    f.HasSmallCells p.grammar ↔ f.JoinsNothingTwice p.grammar := by
  have hshown := Fills.shownTrees_eq hg hp hf
  rw [Fills.hasSmallCells_iff hg hp hf, Filling.JoinsNothingTwice]
  simp only [Filling.shownKinds, hshown]
  exact Grammar.forall_nodup_kinds_treesAt_iff hg.reads.isIndexed hp

end Shown

/-- With a shipped policy the cell over `l` characters has no tree twice. With `m` nonterminals it
has at most `m ^ (2 * l - 1)` trees, of each symbol at most `m ^ (2 * l - 2)`, and it has as many
trees as that where every nonterminal expands to every pair and to every letter of the text. All
cells have at most one tree of each symbol, and so no more than `m` trees, exactly when no split
that is committed joins a symbol twice; this is so if no symbol has two binary rules. -/
theorem sizes_of_cells (hg : p.grammar.IsBuiltOver names)
    (hp : p.policy = .rightmost ∨ p.policy = .leftmost) (ha : p.Admits text) :
    ∃ f, p.fill names text = .ok f ∧
      (∀ s cell, f.chart.get? s = some cell → ∃ l : Nat, s.length = l ∧ cell.nodes.Nodup ∧
        cell.nodes.length ≤ p.grammar.nonterminals.length ^ (2 * l - 1) ∧
        ∀ a, cell.kinds.count a ≤ p.grammar.nonterminals.length ^ (2 * l - 2)) ∧
      (∀ x, p.grammar.JoinsEverything x → (∀ c ∈ text.toList, names.Spells x c) →
        ∀ i l, 0 < l → i + l ≤ text.length →
          (f.shownTrees i l).length = p.grammar.nonterminals.length ^ (2 * l - 1)) ∧
      (f.HasSmallCells p.grammar ↔ f.JoinsNothingTwice p.grammar) ∧
      ((∀ a, (p.grammar.binaryRules.get a).length ≤ 1) → f.HasSmallCells p.grammar) := by
  obtain ⟨order, hprefers⟩ := Policy.exists_prefers hp
  obtain ⟨f, hfill, hf⟩ := exists_fill hg hprefers.decisive.staysOver ha
  have hindexed := hg.reads.isIndexed
  obtain ⟨hsound, hnodup⟩ := hg.isSound
  have hsmall := Fills.hasSmallCells_iff_joinsNothingTwice hg hprefers hf
  refine ⟨f, hfill, fun s cell hcell => ?_, fun x hx htext i l hl hi => ?_, hsmall, fun hone => ?_⟩
  · obtain ⟨i, l, -, -, rfl, -, rfl⟩ := hf.get?_eq_some_iff.1 hcell
    exact ⟨l, rfl, Grammar.nodup_treesAt_of_prefers hindexed hprefers,
      Grammar.length_treesAt_le hindexed hsound hprefers,
      Grammar.count_kinds_treesAt_le hindexed hsound hprefers⟩
  · rw [Fills.shownTrees_eq hg hprefers hf]
    have hlookup : ∀ c ∈ text.toList, characterSymbol names c = some x := fun c hc =>
      (hg.reads.lookup_iff _ x (hx.unit _ hsound.start_mem) c).2 (htext c hc)
    exact hx.length_treesAt hindexed hsound hnodup hprefers hlookup hl hi
  · exact hsmall.2 fun i l k _ => Grammar.joinsOnce_of_length_le_one hone _ _

/-- Two nonterminals of which each expands to the letter and to every pair. -/
def crowded : Description where
  start := .str "S"
  terminals := [.str "a"]
  nonterminals := [.str "S", .str "A"]
  binary := ["S", "A"].flatMap fun a => ["S", "A"].flatMap fun b => ["S", "A"].map fun c =>
    .tuple [.str a, .str b, .str c]
  unit := ["S", "A"].map fun a => .tuple [.str a, .str "a"]

/-- The grammar that `crowded` gives over an empty table. -/
def crowdedGrammar : Grammar Symbol :=
  .ofDeclarations ⟨0, [1], [0, 2], [0, 2].flatMap fun a => [0, 2].flatMap fun b =>
    [0, 2].map fun c => (a, b, c), [(0, 1), (2, 1)]⟩

theorem build_crowded : crowded.build .empty = (.ok crowdedGrammar, ⟨["S", "a", "A"]⟩) := rfl

theorem crowdedGrammar_isBuiltOver : crowdedGrammar.IsBuiltOver ⟨["S", "a", "A"]⟩ :=
  ⟨crowded, .empty, _, build_crowded, .refl _⟩

/-- Four letters have 128 trees where everything joins everything, and one tree of each symbol over
each span where there is one binary rule. -/
theorem sizes_over_four_letters :
    (ofGrammar crowdedGrammar).grammar.IsBuiltOver ⟨["S", "a", "A"]⟩ ∧
      (ofGrammar .letters).grammar.IsBuiltOver Grammar.letterNames ∧
      (∀ g, (ofGrammar g).policy = .rightmost ∧ (ofGrammar g).Admits "aaaa") ∧
      (∃ f, (ofGrammar crowdedGrammar).fill ⟨["S", "a", "A"]⟩ "aaaa" = .ok f ∧
        (f.shownTrees 0 4).length = 128) ∧
      ∃ f, (ofGrammar .letters).fill Grammar.letterNames "aaaa" = .ok f ∧
        f.HasSmallCells .letters := by
  have hall : ∀ g, (ofGrammar g).policy = .rightmost ∧ (ofGrammar g).Admits "aaaa" :=
    fun g => ⟨rfl, ofGrammar_admits g "aaaa"⟩
  refine ⟨crowdedGrammar_isBuiltOver, Grammar.letters_isBuiltOver, hall, ?_, ?_⟩
  · obtain ⟨f, hfill, -, hcrowded, -, -⟩ := sizes_of_cells (p := ofGrammar crowdedGrammar)
      crowdedGrammar_isBuiltOver (.inl rfl) (hall _).2
    have hjoins : crowdedGrammar.JoinsEverything 1 := ⟨by decide, by decide⟩
    have hspells : ∀ c ∈ "aaaa".toList, NameTable.Spells ⟨["S", "a", "A"]⟩ 1 c := by
      intro c hc
      obtain rfl : c = 'a' := by simpa using hc
      rfl
    exact ⟨f, hfill, hcrowded 1 hjoins hspells 0 4 (by decide) (by decide)⟩
  · obtain ⟨f, hfill, -, -, -, hsmall⟩ := sizes_of_cells (p := ofGrammar .letters)
      Grammar.letters_isBuiltOver (.inl rfl) (hall _).2
    refine ⟨f, hfill, hsmall fun a => ?_⟩
    by_cases ha : a = 0
    · rw [ha]
      decide
    · have hnone : Grammar.letters.binaryRules.get a = [] := if_neg (Ne.symm ha)
      simp [ofGrammar, hnone]

/-- Over two letters each of two nonterminals has four trees, whichever split is preferred. -/
theorem two_letters_crowd_a_cell : ∃ g names, crowded.build .empty = (.ok g, names) ∧
    g.IsBuiltOver names ∧ g.nonterminals.length = 2 ∧
    ∀ policy, policy = .rightmost ∨ policy = .leftmost →
      ∃ f, (Parser.mk g policy none).fill names "aa" = .ok f ∧ ¬ f.HasSmallCells g ∧
        (f.chart.get? ⟨0, 2⟩).map (fun cell => cell.kinds) =
          some [0, 2, 0, 2, 0, 2, 0, 2] := by
  refine ⟨_, _, build_crowded, crowdedGrammar_isBuiltOver, rfl, fun policy hp => ?_⟩
  have hkinds : ((Parser.mk crowdedGrammar policy none).fill ⟨["S", "a", "A"]⟩ "aa").toOption.map
      (fun f => (f.chart.get? ⟨0, 2⟩).map fun cell => cell.kinds) =
        some (some [0, 2, 0, 2, 0, 2, 0, 2]) := by
    rcases hp with rfl | rfl
    · decide +kernel
    · decide +kernel
  cases hfill : (Parser.mk crowdedGrammar policy none).fill ⟨["S", "a", "A"]⟩ "aa" with
  | error e =>
    rw [hfill] at hkinds
    cases hkinds
  | ok f =>
    rw [hfill] at hkinds
    have hcell := Option.some.inj hkinds
    refine ⟨f, rfl, fun hsmall => ?_, hcell⟩
    obtain ⟨cell, hget, hcell⟩ := Option.map_eq_some_iff.1 hcell
    have hnodup := (hsmall _ cell hget).1
    rw [hcell] at hnodup
    exact absurd hnodup (by decide)

end Parser

end ChartParsing
