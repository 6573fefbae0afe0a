import ChartParsing.Proofs.Chart.Survivors
import ChartParsing.Proofs.Parser.Forest

/-!
# What a parser without options recognizes

A parser without options lets the last split win, and recognizes the texts over which the
start symbol survives. All of them are derived from the start symbol, but a text that is
derived can be lost, even one that has a single parse tree: the start symbol of `forked`
derives three letters at the first split of them only, and the second split, which gives
another symbol, wins.
-/

namespace ChartParsing

namespace Grammar

/-- Three letters `a` are an `S` when they are split after the first, and an `X` when they are
split after the second. -/
def forked : Grammar Symbol :=
  ofDeclarations ⟨0, [1], [0, 2, 3, 4], [(0, 2, 3), (4, 3, 2), (3, 2, 2)], [(2, 1)]⟩

/-- The table of `forked`. -/
def forkedNames : NameTable := ⟨["S", "a", "A", "B", "X"]⟩

theorem forked_isBuiltOver : forked.IsBuiltOver forkedNames := by
  let d : Description := {
    start := .str "S"
    terminals := [.str "a"]
    nonterminals := [.str "S", .str "A", .str "B", .str "X"]
    binary := [.tuple [.str "S", .str "A", .str "B"], .tuple [.str "X", .str "B", .str "A"],
      .tuple [.str "B", .str "A", .str "A"]]
    unit := [.tuple [.str "A", .str "a"]] }
  exact ⟨d, .empty, forkedNames, rfl, .refl _⟩

end Grammar

namespace Parser

variable {g : Grammar Symbol} {names : NameTable}

/-- A parser without options always answers, and recognizes a text exactly when the start
symbol survives over it, which is when it gives a tree. It is right about the language exactly
where what derives the text survives. -/
theorem recognize_ofGrammar (hg : g.IsBuiltOver names) (text : String) :
    (∃ b, (ofGrammar g).recognize names text = .ok b) ∧
    ((ofGrammar g).recognize names text = .ok true ↔
      g.Survives names.Spells text.toList 0 text.length g.start) ∧
    ((ofGrammar g).recognize names text = .ok true ↔
      ∃ root, ((ofGrammar g).parse names text).result = .ok root) ∧
    ((ofGrammar g).recognize names text = .ok true →
      g.DerivesText names.Spells g.start text.toList) ∧
    (((ofGrammar g).recognize names text = .ok true ↔
        g.DerivesText names.Spells g.start text.toList) ↔
      (g.DerivesText names.Spells g.start text.toList →
        g.Survives names.Spells text.toList 0 text.length g.start)) := by
  have hp : (ofGrammar g).policy.StaysOver := Policy.rightmost_isHonest.staysOver
  have ha := ofGrammar_admits g text
  have hsurvives : (ofGrammar g).recognize names text = .ok true ↔
      g.Survives names.Spells text.toList 0 text.length g.start := by
    rw [recognize_eq_ok_true_iff hg hp ha, ← String.length_toList]
    exact Grammar.exists_mem_treesAt_rightmost_iff hg.reads
  have hsound : g.Survives names.Spells text.toList 0 text.length g.start →
      g.DerivesText names.Spells g.start text.toList := by
    intro h
    rw [← String.length_toList] at h
    have := h.derivesText (Nat.le_of_eq (Nat.zero_add _))
    rwa [slice_all] at this
  refine ⟨?_, hsurvives, recognize_eq_ok_true_iff_exists_root hg hp ha, ?_, ?_⟩
  · obtain ⟨b, hb, -⟩ := recognize_of_admits hg hp ha
    exact ⟨b, hb⟩
  · exact fun h => hsound (hsurvives.1 h)
  · rw [hsurvives]
    exact ⟨Iff.mpr, fun h => ⟨hsound, h⟩⟩

/-- Two letters under the most ambiguous grammar are recognized, since the start symbol
survives over them. -/
theorem recognize_two_letters : Grammar.letters.IsBuiltOver Grammar.letterNames ∧
    (ofGrammar .letters).recognize Grammar.letterNames "aa" = .ok true ∧
    Grammar.letters.Survives Grammar.letterNames.Spells ['a', 'a'] 0 2 Grammar.letters.start ∧
    Grammar.letters.DerivesText Grammar.letterNames.Spells Grammar.letters.start ['a', 'a'] := by
  have htrue : (ofGrammar .letters).recognize Grammar.letterNames "aa" = .ok true :=
    eq_ok_of_toOption (by decide +kernel)
  obtain ⟨-, hsurvives, -, hderives, -⟩ := recognize_ofGrammar Grammar.letters_isBuiltOver "aa"
  exact ⟨Grammar.letters_isBuiltOver, htrue, hsurvives.1 htrue, hderives htrue⟩

/-- Three letters have one parse tree under `forked`, and are not recognized. -/
theorem derived_text_is_not_recognized : Grammar.forked.IsBuiltOver Grammar.forkedNames ∧
    Grammar.forked.DerivesText Grammar.forkedNames.Spells Grammar.forked.start ['a', 'a', 'a'] ∧
    (parsesOf .forked Grammar.forkedNames "aaa").encard = 1 ∧
    (ofGrammar .forked).recognize Grammar.forkedNames "aaa" = .ok false := by
  have hletter : Grammar.forked.DerivesText Grammar.forkedNames.Spells 2 ['a'] :=
    .unit (show (1 : Symbol) ∈ _ by decide) rfl
  have hpair : Grammar.forked.DerivesText Grammar.forkedNames.Spells 3 ['a', 'a'] :=
    hletter.binary (show ((2, 2) : Symbol × Symbol) ∈ _ by decide) hletter
  have hthree : Grammar.forked.DerivesText Grammar.forkedNames.Spells 0 ['a', 'a', 'a'] :=
    hletter.binary (show ((2, 3) : Symbol × Symbol) ∈ _ by decide) hpair
  -- the parse trees are counted in the chart that keeps all candidates
  have hcount : ((Parser.mk .forked .merge none).fill Grammar.forkedNames "aaa").toOption.map
      (fun f => (f.chart.topTrees.filter fun t => decide (t.kind = 0)).length) = some 1 := by
    decide +kernel
  have hone : (parsesOf .forked Grammar.forkedNames "aaa").encard = 1 := by
    have ha : (Parser.mk .forked .merge none).Admits "aaa" := ofGrammar_admits .forked "aaa"
    obtain ⟨f, hfill, hf⟩ :=
      exists_fill Grammar.forked_isBuiltOver Policy.merge_keepsAll.staysOver ha
    rw [hfill] at hcount
    have hcard := encard_parsesOf Grammar.forked_isBuiltOver Policy.merge_keepsAll hf
    exact hcard.trans (congrArg Nat.cast (Option.some.inj hcount))
  exact ⟨Grammar.forked_isBuiltOver, hthree, hone, eq_ok_of_toOption (by decide +kernel)⟩

end Parser

end ChartParsing
