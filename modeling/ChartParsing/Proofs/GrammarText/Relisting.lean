import ChartParsing.Proofs.GrammarText.Collecting
import ChartParsing.Proofs.GrammarText.Listing

/-!
# What a listing says

The items of a listing are collected to declarations again (`Grammar.relisted`). The start
symbol comes first among the nonterminals, and the rules of a left side stand together; apart
from that the declarations are those that the grammar was built from.
-/

namespace ChartParsing

open GrammarText

/-- A unit rule as a pair. -/
def Rule.unit? {σ : Type} : Rule σ → Option (σ × σ)
  | ⟨a, [t]⟩ => some (a, t)
  | _ => none

/-- A binary rule as a triple. -/
def Rule.binary? {σ : Type} : Rule σ → Option (σ × σ × σ)
  | ⟨a, [b, c]⟩ => some (a, b, c)
  | _ => none

theorem Rule.unit?_eq_some_iff {σ : Type} {r : Rule σ} {p : σ × σ} :
    r.unit? = some p ↔ r = ⟨p.1, [p.2]⟩ := by
  obtain ⟨a, right⟩ := r
  obtain ⟨b, t⟩ := p
  rcases right with _ | ⟨x, _ | ⟨y, rest⟩⟩ <;> simp [unit?]

theorem Rule.binary?_eq_some_iff {σ : Type} {r : Rule σ} {p : σ × σ × σ} :
    r.binary? = some p ↔ r = ⟨p.1, [p.2.1, p.2.2]⟩ := by
  obtain ⟨a, right⟩ := r
  obtain ⟨b, c, e⟩ := p
  rcases right with _ | ⟨x, _ | ⟨y, _ | ⟨z, rest⟩⟩⟩ <;> simp [binary?]

/-- The declarations that the listing of a grammar says. -/
def Grammar.relisted (g : Grammar String) : Declarations String where
  start := g.start
  terminals := FirstSeen.ofList g.terminals
  nonterminals := FirstSeen.ofList (g.start :: g.nonterminals)
  binary := g.rules.filterMap Rule.binary?
  unit := g.rules.filterMap Rule.unit?

namespace GrammarText.Collection

variable {c : Collection}

theorem addNonterminal_of_mem {name : String} (h : name ∈ c.nonterminals) :
    c.addNonterminal name = c := by
  rw [addNonterminal, FirstSeen.add_of_mem h]

theorem addTerminal_of_mem {value : String} (h : value ∈ c.terminals) :
    c.addTerminal value = c := by
  rw [addTerminal, FirstSeen.add_of_mem h]

/-- What is declared already is not declared again. -/
theorem foldl_addSymbol {symbols : List RightSymbol}
    (h : ∀ x ∈ symbols, c.addSymbol x = c) : symbols.foldl addSymbol c = c := by
  induction symbols with
  | nil => rfl
  | cons x symbols ih =>
    obtain ⟨hx, hrest⟩ := List.forall_mem_cons.1 h
    rw [List.foldl_cons, hx, ih hrest]

end GrammarText.Collection

namespace Grammar

variable {g : Grammar String}

theorem text_rightSymbol (s : String) : (g.rightSymbol s).text = s := by
  unfold rightSymbol
  split <;> rfl

/-- A collection to which rules of a grammar were added, all of whose symbols it declares. -/
structure IsCollected (g : Grammar String) (done : List (Rule String)) (c : Collection) : Prop where
  start : c.start = some g.start
  terminals : c.terminals = FirstSeen.ofList g.terminals
  nonterminals : c.nonterminals = FirstSeen.ofList (g.start :: g.nonterminals)
  binary : c.binary = done.filterMap Rule.binary?
  unit : c.unit = done.filterMap Rule.unit?

section Collecting

variable {done : List (Rule String)} {c : Collection}

/-- A symbol on the right side of a rule is declared already. -/
theorem IsCollected.addSymbol_eq (h : g.IsCollected done c) {s : String}
    (hs : s ∈ g.terminals ∨ s ∈ g.nonterminals) : c.addSymbol (g.rightSymbol s) = c := by
  by_cases ht : s ∈ g.terminals
  · rw [rightSymbol, isTerminal, if_pos (decide_eq_true ht)]
    apply Collection.addTerminal_of_mem
    rwa [h.terminals, FirstSeen.mem_ofList]
  · rw [rightSymbol, isTerminal, if_neg (by simpa using ht)]
    apply Collection.addNonterminal_of_mem
    rw [h.nonterminals, FirstSeen.mem_ofList]
    exact List.mem_cons_of_mem g.start (hs.resolve_left ht)

/-- The alternative of a rule adds the rule and nothing else. -/
theorem IsCollected.addAlternative (hg : g.IsSound) (h : g.IsCollected done c) {r : Rule String}
    (hr : r ∈ g.rules) : ∃ c', c.addAlternative r.left (r.right.map g.rightSymbol) = .ok c' ∧
      g.IsCollected (done ++ [r]) c' := by
  obtain ⟨left, right⟩ := r
  have hdeclared : ∀ s ∈ right, s ∈ g.terminals ∨ s ∈ g.nonterminals := by
    rcases hg.right_of_mem_rules hr with ⟨t, ht, rfl⟩ | ⟨b, hb, c, hc, rfl⟩
    · simp [ht]
    · simp [hb, hc]
  have hsame : (right.map g.rightSymbol).foldl Collection.addSymbol c = c := by
    apply Collection.foldl_addSymbol
    rw [List.forall_mem_map]
    exact fun s hs => h.addSymbol_eq (hdeclared s hs)
  have htexts : (right.map g.rightSymbol).map RightSymbol.text = right := by
    rw [List.map_map]
    exact (List.map_congr_left fun s _ => text_rightSymbol s).trans (List.map_id right)
  rw [Collection.addAlternative, hsame, htexts]
  rcases hg.right_of_mem_rules hr with ⟨t, -, rfl⟩ | ⟨b, -, c, -, rfl⟩
  · refine ⟨_, rfl, h.start, h.terminals, h.nonterminals, ?_, ?_⟩
    · simp [h.binary, Rule.binary?]
    · simp [h.unit, Rule.unit?]
  · refine ⟨_, rfl, h.start, h.terminals, h.nonterminals, ?_, ?_⟩
    · simp [h.binary, Rule.binary?]
    · simp [h.unit, Rule.unit?]

/-- A production of a rule adds the rule and nothing else. -/
theorem IsCollected.addItem (hg : g.IsSound) (h : g.IsCollected done c) {r : Rule String}
    (hr : r ∈ g.rules) : ∃ c', c.addItem (.production r.left [r.right.map g.rightSymbol]) = .ok c' ∧
      g.IsCollected (done ++ [r]) c' := by
  have hleft : c.addNonterminal r.left = c := by
    apply Collection.addNonterminal_of_mem
    rw [h.nonterminals, FirstSeen.mem_ofList]
    exact List.mem_cons_of_mem g.start (mem_rules.1 hr).1
  have hfirst : g.IsCollected done { c with firstLeft := c.firstLeft.or (some r.left) } :=
    ⟨h.start, h.terminals, h.nonterminals, h.binary, h.unit⟩
  obtain ⟨c', hc', hcollected⟩ := hfirst.addAlternative hg hr
  refine ⟨c', ?_, hcollected⟩
  rw [Collection.addItem, hleft, List.foldlM_cons, hc']
  rfl

end Collecting

/-- The items of a listing can be collected. -/
theorem exists_collection (hg : g.IsSound) :
    ∃ c, Collection.ofItems g.items = .ok c ∧ g.IsCollected g.rules c := by
  let declared : Collection := {
    start := some g.start
    firstLeft := none
    terminals := FirstSeen.ofList g.terminals
    nonterminals := FirstSeen.ofList (g.start :: g.nonterminals)
    binary := []
    unit := [] }
  have hdeclared : g.IsCollected [] declared := ⟨rfl, rfl, rfl, rfl, rfl⟩
  have hitems : Collection.ofItems g.items = g.rules.foldlM (fun c r =>
      c.addItem (.production r.left [r.right.map g.rightSymbol])) declared := by
    simp only [Collection.ofItems, items, List.foldlM_cons, List.foldlM_map, Collection.addItem,
      Collection.empty, Collection.foldl_addTerminal, Collection.foldl_addNonterminal]
    rfl
  rw [hitems]
  refine foldlM_invariant (fun done c => g.IsCollected done c) hdeclared ?_
  intro done r rest hrules c hc
  exact hc.addItem hg (hrules ▸ by simp)

/-- The items of a listing describe what it says. -/
theorem describeItems_items (hg : g.IsSound) :
    ∃ d, describeItems g.items = .ok d ∧ d.Says g.relisted := by
  obtain ⟨c, hc, hcollected⟩ := exists_collection hg
  have hd : describeItems g.items = c.describe := by
    rw [describeItems, hc]
    rfl
  rw [hd, Collection.describe, hcollected.start, Option.some_or]
  refine ⟨_, rfl, ⟨rfl, ?_, ?_, ?_, ?_⟩⟩
  · exact congrArg _ hcollected.terminals
  · exact congrArg _ hcollected.nonterminals
  · rw [List.forall₂_map_left_iff, hcollected.binary]
    exact List.forall₂_same.2 fun r _ => rfl
  · rw [List.forall₂_map_left_iff, hcollected.unit]
    exact List.forall₂_same.2 fun r _ => rfl

theorem mem_relisted_unit {r : String × String} : r ∈ g.relisted.unit ↔
    r.1 ∈ g.nonterminals ∧ r.2 ∈ g.unitRules.get r.1 := by
  simp only [relisted, List.mem_filterMap, Rule.unit?_eq_some_iff, exists_eq_right, mem_rules]
  simp

theorem mem_relisted_binary {r : String × String × String} : r ∈ g.relisted.binary ↔
    r.1 ∈ g.nonterminals ∧ r.2 ∈ g.binaryRules.get r.1 := by
  simp only [relisted, List.mem_filterMap, Rule.binary?_eq_some_iff, exists_eq_right, mem_rules]
  simp

theorem mem_relisted_terminals {s : String} : s ∈ g.relisted.terminals ↔ s ∈ g.terminals :=
  FirstSeen.mem_ofList

theorem mem_relisted_nonterminals (hg : g.IsSound) {s : String} :
    s ∈ g.relisted.nonterminals ↔ s ∈ g.nonterminals := by
  rw [relisted, FirstSeen.mem_ofList, List.mem_cons]
  exact ⟨fun h => h.elim (fun e => e ▸ hg.start_mem) id, .inr⟩

/-- What the listing of a sound grammar says is sound. -/
theorem isSound_relisted (hg : g.IsSound) : g.relisted.IsSound where
  disjoint s ht hn :=
    hg.disjoint (mem_relisted_terminals.1 ht) ((mem_relisted_nonterminals hg).1 hn)
  start_mem := (mem_relisted_nonterminals hg).2 hg.start_mem
  binary_mem r hr := by
    obtain ⟨hleft, hright⟩ := mem_relisted_binary.1 hr
    obtain ⟨hfirst, hsecond⟩ := hg.binary_right r.1 r.2 hright
    exact ⟨(mem_relisted_nonterminals hg).2 hleft, (mem_relisted_nonterminals hg).2 hfirst,
      (mem_relisted_nonterminals hg).2 hsecond⟩
  unit_mem r hr := by
    obtain ⟨hleft, hright⟩ := mem_relisted_unit.1 hr
    exact ⟨(mem_relisted_nonterminals hg).2 hleft,
      mem_relisted_terminals.2 (hg.unit_right r.1 r.2 hright)⟩

end Grammar

end ChartParsing
