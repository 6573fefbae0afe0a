import ChartParsing.Proofs.Parser.Answers

/-!
# What a parser commits is true of the text

A policy that invents nothing cannot make a chart lie: every tree that is committed is a
parse tree of its span, and its text is the text of the span. So is the tree that a parser
gives, for the whole text and the start symbol.
-/

namespace ChartParsing

namespace Tree

/-- The text of a parse tree is the part of the text that the tree covers. -/
theorem IsParse.text_eq {g : Grammar Symbol} {names : NameTable} {text : List Char}
    {t : Tree Symbol} (h : t.IsParse g names.Spells text) :
    t.text names = .ok (String.ofList (t.span.slice text)) :=
  text_eq_ok h.leaves_spell

end Tree

namespace Parser

variable {p : Parser} {names : NameTable} {text : String}

/-- The entries of a filled chart: cells over spans of the text, with the trees of the
recurrence. -/
theorem Fills.eq_of_mem_entries {f : Filling Symbol} (h : p.Fills names text f) {s : Span}
    {cell : Cell Symbol} (hm : (s, cell) ∈ f.chart.entries) :
    ∃ i l : Nat, 0 < l ∧ i + l ≤ text.toList.length ∧ s = ⟨i, l⟩ ∧ cell =
      ⟨s, p.grammar.treesAt (characterSymbol names) p.policy text.toList i l⟩ := by
  rw [h.entries, List.mem_filterMap] at hm
  obtain ⟨s', hs, hcell⟩ := hm
  obtain ⟨cell', hcell, he⟩ := Option.map_eq_some_iff.1 hcell
  cases he
  obtain ⟨i, l, hl, hi, rfl⟩ := Grammar.mem_spansOf.1 hs
  obtain ⟨-, hcell⟩ := Grammar.cellOver?_eq_some_iff.1 hcell
  exact ⟨i, l, hl, hi, rfl, hcell⟩

/-- The trees over the whole text, if the policy invents none, are parse trees of it. -/
theorem isParse_of_mem_rootTrees (hg : p.grammar.IsBuiltOver names) (hp : p.policy.OnlyPicks)
    {t : Tree Symbol} (ht : t ∈ p.rootTrees names text) :
    t.IsParse p.grammar names.Spells text.toList ∧ t.span = ⟨0, text.length⟩ ∧
      t.text names = .ok text := by
  obtain ⟨hparse, hspan⟩ := Grammar.isParse_of_mem_treesAt hg.reads hp ht
  have htext := hparse.text_eq
  rw [hspan, Span.slice_mk, slice_all, String.ofList_toList] at htext
  rw [← String.length_toList]
  exact ⟨hparse, hspan, htext⟩

/-- With a policy that invents nothing, a parser commits parse trees of the text only. -/
theorem trees_of_honest_policy (hg : p.grammar.IsBuiltOver names) (hp : p.policy.IsHonest)
    (text : String) :
    (p.Admits text → ∃ f, p.fill names text = .ok f) ∧
    (∀ f, p.fill names text = .ok f → ∀ s cell, (s, cell) ∈ f.chart.entries →
      cell.span = s ∧ 0 ≤ s.start ∧ 0 < s.length ∧ s.stop ≤ text.length ∧
        ∀ t ∈ cell.nodes, t.span = s ∧ t.IsParse p.grammar names.Spells text.toList ∧
          t.text names = .ok (String.ofList (s.slice text.toList))) ∧
    (∀ root, (p.parse names text).result = .ok root →
      root.kind = p.grammar.start ∧ root.IsParse p.grammar names.Spells text.toList ∧
        root.span = ⟨0, text.length⟩ ∧ root.text names = .ok text) := by
  refine ⟨fun ha => ?_, fun f hf s cell hm => ?_, fun root hroot => ?_⟩
  · obtain ⟨f, hf, -⟩ := exists_fill hg hp.staysOver ha
    exact ⟨f, hf⟩
  · have hfills := fills_of_fill hg hp.staysOver hf
    obtain ⟨i, l, hl, hi, rfl, rfl⟩ := hfills.eq_of_mem_entries hm
    rw [String.length_toList] at hi
    have hstop : (⟨i, l⟩ : Span).stop ≤ text.length := by
      simp only [Span.stop]
      omega
    refine ⟨rfl, Int.natCast_nonneg i, Int.natCast_pos.2 hl, hstop, fun t ht => ?_⟩
    obtain ⟨hparse, hspan⟩ := Grammar.isParse_of_mem_treesAt hg.reads hp.onlyPicks ht
    exact ⟨hspan, hparse, hspan ▸ hparse.text_eq⟩
  · obtain ⟨-, hfind⟩ := (parse_eq_ok_iff hg hp.staysOver).1 hroot
    have hkind := List.find?_some hfind
    obtain ⟨hparse, hspan, htext⟩ :=
      isParse_of_mem_rootTrees hg hp.onlyPicks (List.mem_of_find?_eq_some hfind)
    exact ⟨of_decide_eq_true hkind, hparse, hspan, htext⟩

/-- Two letters under the most ambiguous grammar: the tree has both as its text. -/
theorem tree_of_two_letters :
    Grammar.letters.IsBuiltOver Grammar.letterNames ∧ (ofGrammar .letters).policy.IsHonest ∧
      ∃ root, ((ofGrammar .letters).parse Grammar.letterNames "aa").result = .ok root ∧
        root.kind = Grammar.letters.start ∧
        root.IsParse .letters Grammar.letterNames.Spells ['a', 'a'] ∧
        root.span = ⟨0, 2⟩ ∧ root.text Grammar.letterNames = .ok "aa" := by
  have hroot : ((ofGrammar .letters).parse Grammar.letterNames "aa").result =
      .ok (.binary 0 ⟨0, 2⟩ (.unary 0 ⟨1, 0⟩) (.unary 0 ⟨1, 1⟩)) :=
    eq_ok_of_toOption (by decide +kernel)
  have hall := trees_of_honest_policy (p := ofGrammar .letters) Grammar.letters_isBuiltOver
    Policy.rightmost_isHonest "aa"
  exact ⟨Grammar.letters_isBuiltOver, Policy.rightmost_isHonest, _, hroot, hall.2.2 _ hroot⟩

end Parser

end ChartParsing
