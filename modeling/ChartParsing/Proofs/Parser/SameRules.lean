import ChartParsing.Proofs.Parser.FirstTrees
import ChartParsing.Proofs.Parser.SharedTables

/-!
# Charts of grammars with the same rules

The order in which a grammar lists its rules shows in the order of the trees over a span, and so
in the tree that is given for a text. It does not show in the names of the symbols over a span
(`Grammar.SameRules.hasKind_iff`): grammars with the same rules by name fill charts with cells
over the same spans, with the same names in each cell, and with the same diagnostics
(`Parser.sameNames_of_sameRules`).
-/

namespace ChartParsing

/-- The names of the symbols of two cells, each read in its own table, are the same but for order
and repetition. -/
def Cell.SameNames (names names' : NameTable) (c c' : Cell Symbol) : Prop :=
  ∃ ss ss', c.kinds.mapM names.resolve = .ok ss ∧ c'.kinds.mapM names'.resolve = .ok ss' ∧
    ∀ s, s ∈ ss ↔ s ∈ ss'

/-- Two charts, each read in its own table, have cells over the same spans, with the same names,
and the same diagnostics. -/
structure Chart.SameNames (names names' : NameTable) (a b : Chart (Cell Symbol)) : Prop where
  spans : a.spans = b.spans
  cells : ∀ s, Option.Rel (Cell.SameNames names names') (a.get? s) (b.get? s)
  diagnostics : a.diagnostics = b.diagnostics

namespace Grammar

variable {g h : Grammar Symbol} {names names' : NameTable} {policy : Policy Symbol}
variable {text : List Char} {i l : Nat}

/-- The symbols over a span are read as the names that have a tree over it. -/
theorem IsBuiltOver.exists_kindNames (hg : g.IsBuiltOver names) (hp : policy.OnlyPicks)
    (text : List Char) (i l : Nat) :
    ∃ ss, ((g.treesAt (Parser.characterSymbol names) policy text i l).map Tree.kind).mapM
        names.resolve = .ok ss ∧ ∀ s, s ∈ ss ↔ g.HasKind names policy text i l s := by
  have hnamed : ∀ a ∈ (g.treesAt (Parser.characterSymbol names) policy text i l).map Tree.kind,
      ∃ s, names.IsHandle s a ∧ True := by
    intro a ha
    obtain ⟨t, ht, rfl⟩ := List.mem_map.1 ha
    obtain ⟨s, hs⟩ := hg.exists_kindName hp ht
    exact ⟨s, hs, trivial⟩
  obtain ⟨ss, hss, -⟩ := exists_forall₂ hnamed
  refine ⟨ss, mapM_eq_ok_iff.2 (hss.imp fun _ _ => NameTable.resolve_of_find?), fun s => ?_⟩
  have hunique : Relator.BiUnique fun a s => names.IsHandle s a :=
    ⟨fun _ _ _ h h' => names.biUnique_isHandle.2 h h',
      fun _ _ _ h h' => names.biUnique_isHandle.1 h h'⟩
  rw [mem_right_iff hunique hss, HasKind]
  simp only [List.mem_map, exists_exists_and_eq_and]

/-- There are trees over a span when a name has one. -/
theorem IsBuiltOver.treesAt_ne_nil_iff (hg : g.IsBuiltOver names) (hp : policy.OnlyPicks) :
    g.treesAt (Parser.characterSymbol names) policy text i l ≠ [] ↔
      ∃ s, g.HasKind names policy text i l s := by
  constructor
  · intro hne
    obtain ⟨t, ht⟩ := List.exists_mem_of_ne_nil _ hne
    obtain ⟨s, hs⟩ := hg.exists_kindName hp ht
    exact ⟨s, t, ht, hs⟩
  · rintro ⟨s, t, ht, -⟩
    exact List.ne_nil_of_mem ht

/-- Where the same names have trees over two spans, both have cells with the same names, or
neither has one. -/
theorem IsBuiltOver.rel_cellOver? {policy' : Policy Symbol} {text' : List Char} {s s' : Span}
    (hg : g.IsBuiltOver names) (hh : h.IsBuiltOver names') (hp : policy.OnlyPicks)
    (hp' : policy'.OnlyPicks)
    (hkinds : ∀ x, g.HasKind names policy text s.start.toNat s.length.toNat x ↔
      h.HasKind names' policy' text' s'.start.toNat s'.length.toNat x) :
    Option.Rel (Cell.SameNames names names')
      (g.cellOver? (Parser.characterSymbol names) policy text s)
      (h.cellOver? (Parser.characterSymbol names') policy' text' s') := by
  refine rel_of_isSome_eq ?_ fun c c' hc hc' => ?_
  · rw [Bool.eq_iff_iff, Option.isSome_iff_ne_none, Option.isSome_iff_ne_none, Ne, Ne,
      cellOver?_eq_none_iff, cellOver?_eq_none_iff]
    exact ((hg.treesAt_ne_nil_iff hp).trans (exists_congr hkinds)).trans
      (hh.treesAt_ne_nil_iff hp').symm
  · obtain ⟨-, rfl⟩ := cellOver?_eq_some_iff.1 hc
    obtain ⟨-, rfl⟩ := cellOver?_eq_some_iff.1 hc'
    obtain ⟨ss, hss, hmem⟩ := hg.exists_kindNames hp text s.start.toNat s.length.toNat
    obtain ⟨ss', hss', hmem'⟩ := hh.exists_kindNames hp' text' s'.start.toNat s'.length.toNat
    refine ⟨ss, ss', hss, hss', fun x => ?_⟩
    rw [hmem, hmem', hkinds]

end Grammar

namespace Parser

variable {g h : Grammar Symbol} {names names' : NameTable} {policy : Policy Symbol}
variable {limit : Option Int} {text : String} {f f' : Filling Symbol}

section Charts

variable (hsame : g.SameRules names h names') (hg : g.IsBuiltOver names)
  (hh : h.IsBuiltOver names') {order : Int → Int → Prop} (hp : policy.Prefers order)

include hsame hg hh hp

/-- The charts that grammars with the same rules by name fill show the same names. -/
theorem sameNames_of_fill (hf : (Parser.mk g policy limit).fill names text = .ok f)
    (hf' : (Parser.mk h policy limit).fill names' text = .ok f') :
    f.chart.SameNames names names' f'.chart := by
  have hstays := hp.decisive.staysOver
  have hfull : f.IsFull g (characterSymbol names) policy text.toList :=
    fills_of_fill (p := ⟨g, policy, limit⟩) hg hstays hf
  have hfull' : f'.IsFull h (characterSymbol names') policy text.toList :=
    fills_of_fill (p := ⟨h, policy, limit⟩) hh hstays hf'
  have hpicks := hp.decisive.onlyPicks
  have hcells : ∀ s, Option.Rel (Cell.SameNames names names')
      (g.cellOver? (characterSymbol names) policy text.toList s)
      (h.cellOver? (characterSymbol names') policy text.toList s) :=
    fun s => hg.rel_cellOver? hh hpicks hpicks (hsame.hasKind_iff hg hh hp text.toList _ _)
  refine ⟨?_, fun s => ?_, ?_⟩
  · rw [hfull.spans_eq, hfull'.spans_eq]
    exact List.filter_congr fun s _ => isSome_eq_of_rel (hcells s)
  · by_cases hs : s ∈ Grammar.spansOf text.toList.length
    · rw [hfull.get?_of_mem hs, hfull'.get?_of_mem hs]
      exact hcells s
    · rw [hfull.get?_of_not_mem hs, hfull'.get?_of_not_mem hs]
      exact .none
  · have hdiagnostics := diagnostics_eq_of_sameRules hsame hg hh hstays limit text
    rw [hf, hf'] at hdiagnostics
    exact Except.ok.inj hdiagnostics

/-- Grammars with the same rules by name lead to charts with the same names, or to the same
error. -/
theorem fill_of_sameRules (limit : Option Int) (text : String) :
    ResultRel (· = ·) (fun f f' => f.chart.SameNames names names' f'.chart)
      ((Parser.mk g policy limit).fill names text)
      ((Parser.mk h policy limit).fill names' text) := by
  have hstays := hp.decisive.staysOver
  by_cases ha : (Parser.mk g policy limit).Admits text
  · have ha' : (Parser.mk h policy limit).Admits text := ha
    obtain ⟨f, hfill, -⟩ := exists_fill hg hstays ha
    obtain ⟨f', hfill', -⟩ := exists_fill hh hstays ha'
    have hsame := sameNames_of_fill hsame hg hh hp hfill hfill'
    rw [hfill, hfill']
    exact .ok hsame
  · obtain ⟨bound, rfl, hlt⟩ := exists_limit_of_not_admits ha
    rw [fill_of_limit_lt rfl hlt, fill_of_limit_lt rfl hlt]
    exact .error rfl

end Charts

/-- Two grammars with the same start symbol and the same sets of rules by name, each over a table
of its own and whatever else they declare, fill charts with cells over the same spans, with the
same names in each and with the same diagnostics, and recognize the same texts. -/
theorem sameNames_of_sameRules (hg : g.IsBuiltOver names) (hh : h.IsBuiltOver names')
    (hsame : g.SameRules names h names') (hp : policy = .rightmost ∨ policy = .leftmost)
    (limit : Option Int) (text : String) :
    ResultRel (· = ·) (fun f f' => f.chart.SameNames names names' f'.chart)
        ((Parser.mk g policy limit).fill names text)
        ((Parser.mk h policy limit).fill names' text) ∧
      (Parser.mk g policy limit).recognize names text =
        (Parser.mk h policy limit).recognize names' text := by
  obtain ⟨order, hprefers⟩ := Policy.exists_prefers hp
  exact ⟨fill_of_sameRules hsame hg hh hprefers limit text,
    recognize_eq_of_sameRules hsame hg hh hprefers limit text⟩

/-- The rules of `twoWays` in another order, one of them twice, beside declarations that no rule
uses. -/
def twoWaysReordered : Description where
  start := .str "S"
  terminals := [.str "b", .str "a"]
  nonterminals := [.str "X", .str "A", .str "S"]
  binary := [.tuple [.str "S", .str "S", .str "S"], .tuple [.str "S", .str "A", .str "A"],
    .tuple [.str "S", .str "S", .str "S"]]
  unit := [.tuple [.str "S", .str "a"], .tuple [.str "A", .str "a"]]

theorem check_twoWays : twoWays.check = .ok ⟨"S", ["a"], ["S", "A"],
    [("S", "A", "A"), ("S", "S", "S")], [("A", "a"), ("S", "a")]⟩ := rfl

theorem check_twoWaysReordered : twoWaysReordered.check = .ok ⟨"S", ["b", "a"], ["X", "A", "S"],
    [("S", "S", "S"), ("S", "A", "A"), ("S", "S", "S")], [("S", "a"), ("A", "a")]⟩ := rfl

/-- The two grammars list their rules in different orders and have different tables, and fill
charts that show the same names. -/
theorem reordered_shows_same_names : ∃ g names h names',
    twoWays.build .empty = (.ok g, names) ∧
    twoWaysReordered.build ⟨["a", "b"]⟩ = (.ok h, names') ∧
    g.IsBuiltOver names ∧ h.IsBuiltOver names' ∧ g.SameRules names h names' ∧
    ResultRel (· = ·) (fun f f' => f.chart.SameNames names names' f'.chart)
      ((ofGrammar g).fill names "aa") ((ofGrammar h).fill names' "aa") ∧
    (ofGrammar g).recognize names "aa" = (ofGrammar h).recognize names' "aa" := by
  obtain ⟨e, names, hb, hread⟩ := Description.exists_build_of_check check_twoWays .empty
  obtain ⟨e', names', hb', hread'⟩ :=
    Description.exists_build_of_check check_twoWaysReordered ⟨["a", "b"]⟩
  have hg : (Grammar.ofDeclarations e).IsBuiltOver names := ⟨_, _, _, hb, .refl _⟩
  have hh : (Grammar.ofDeclarations e').IsBuiltOver names' := ⟨_, _, _, hb', .refl _⟩
  have hsame : (Grammar.ofDeclarations e).SameRules names (.ofDeclarations e') names' := by
    refine Grammar.sameRules_ofDeclarations (hread names (.refl _)) (hread' names' (.refl _)) rfl
      (fun _ => (List.Perm.swap _ _ []).mem_iff) fun r => ?_
    simp only [List.mem_cons, List.not_mem_nil, or_false]
    tauto
  obtain ⟨hfill, hrecognize⟩ := sameNames_of_sameRules hg hh hsame (.inl rfl) none "aa"
  exact ⟨_, _, _, _, hb, hb', hg, hh, hsame, hfill, hrecognize⟩

end Parser

end ChartParsing
