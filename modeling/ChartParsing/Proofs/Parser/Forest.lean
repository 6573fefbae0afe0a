import ChartParsing.Proofs.Chart.Forest
import ChartParsing.Proofs.Parser.Answers
import Mathlib.Data.Set.Card

/-!
# The parse forest

A parser whose policy keeps the trees of all candidates commits the parse forest of a text:
over every span all parse trees, each once. It recognizes the language of its grammar, and
the trees of the start symbol over the whole text are as many as the text has parse trees.
-/

namespace ChartParsing.Parser

variable {p : Parser} {names : NameTable} {text : String}

/-- The parse trees of a text: those of the start symbol over all of it. -/
def parsesOf (g : Grammar Symbol) (names : NameTable) (text : String) : Set (Tree Symbol) :=
  {t | t.IsParse g names.Spells text.toList ∧ t.kind = g.start ∧ t.span = ⟨0, text.length⟩}

section Kept

variable (hg : p.grammar.IsBuiltOver names) (hp : p.policy.KeepsAll)

include hg hp

/-- The trees that are committed over a span are its parse trees. -/
theorem mem_treesOn_iff_isParse {f : Filling Symbol} (hf : p.Fills names text f) {s : Span}
    {t : Tree Symbol} : t ∈ f.chart.treesOn s ↔
      t.IsParse p.grammar names.Spells text.toList ∧ t.span = s := by
  by_cases hs : s ∈ Grammar.spansOf text.toList.length
  · obtain ⟨i, l, -, hi, rfl⟩ := Grammar.mem_spansOf.1 hs
    rw [hf.treesOn_eq hi]
    exact Grammar.mem_treesAt_iff_isParse hg.reads hp
  · rw [hf.treesOn_eq_nil hs]
    constructor
    · exact fun ht => absurd ht List.not_mem_nil
    · rintro ⟨ht, rfl⟩
      exact absurd (Grammar.mem_spansOf.2 ht.exists_span) hs

/-- No tree is committed twice over a span. -/
theorem nodup_treesOn {f : Filling Symbol} (hf : p.Fills names text f) (s : Span) :
    (f.chart.treesOn s).Nodup := by
  by_cases hs : s ∈ Grammar.spansOf text.toList.length
  · obtain ⟨i, l, -, hi, rfl⟩ := Grammar.mem_spansOf.1 hs
    rw [hf.treesOn_eq hi]
    exact Grammar.nodup_treesAt hg.reads hp
  · rw [hf.treesOn_eq_nil hs]
    exact List.nodup_nil

/-- The trees of the start symbol over the whole text are as many as the text has parses. -/
theorem encard_parsesOf {f : Filling Symbol} (hf : p.Fills names text f) :
    (parsesOf p.grammar names text).encard =
      (f.chart.topTrees.filter fun t => decide (t.kind = p.grammar.start)).length := by
  let tops := f.chart.topTrees.filter fun t => decide (t.kind = p.grammar.start)
  have hnodup : tops.Nodup := by
    apply List.Nodup.filter
    rw [hf.topTrees_eq]
    exact Grammar.nodup_treesAt hg.reads hp
  have htops : parsesOf p.grammar names text = (tops.toFinset : Set (Tree Symbol)) := by
    ext t
    rw [List.coe_toFinset, Set.mem_ofPred_eq, List.mem_filter, hf.topTrees_eq,
      Grammar.mem_treesAt_iff_isParse hg.reads hp, decide_eq_true_eq, parsesOf,
      Set.mem_ofPred_eq, ← String.length_toList]
    constructor
    · rintro ⟨hparse, hkind, hspan⟩
      exact ⟨⟨hparse, hspan⟩, hkind⟩
    · rintro ⟨⟨hparse, hspan⟩, hkind⟩
      exact ⟨hparse, hkind, hspan⟩
  rw [htops, Set.encard_coe_eq_coe_finsetCard, List.toFinset_card_of_nodup hnodup]

end Kept

/-- A parser that keeps all candidates commits the parse forest of a text. -/
theorem forest_of_keeping_policy (hg : p.grammar.IsBuiltOver names) (hp : p.policy.KeepsAll)
    (ha : p.Admits text) :
    ∃ f, p.fill names text = .ok f ∧
      (∀ s, (f.chart.treesOn s).Nodup ∧ ∀ t, t ∈ f.chart.treesOn s ↔
        t.IsParse p.grammar names.Spells text.toList ∧ t.span = s) ∧
      (p.recognize names text = .ok true ↔
        p.grammar.DerivesText names.Spells p.grammar.start text.toList) ∧
      (parsesOf p.grammar names text).encard =
        (f.chart.topTrees.filter fun t => decide (t.kind = p.grammar.start)).length := by
  obtain ⟨f, hfill, hf⟩ := exists_fill hg hp.staysOver ha
  refine ⟨f, hfill, fun s => ⟨nodup_treesOn hg hp hf s, fun t => ?_⟩, ?_, ?_⟩
  · exact mem_treesOn_iff_isParse hg hp hf
  · apply recognize_iff_of_isExactOver hg hp.staysOver ha
    exact Grammar.isExactOver_of_keepsAll hg.reads hp (Nat.le_of_eq (Nat.zero_add _))
  · exact encard_parsesOf hg hp hf

/-- Three letters have two parse trees under the most ambiguous grammar. -/
theorem three_letters_have_two_parses :
    Grammar.letters.IsBuiltOver Grammar.letterNames ∧ (Policy.merge : Policy Symbol).KeepsAll ∧
      (Parser.mk .letters .merge none).Admits "aaa" ∧
      (parsesOf .letters Grammar.letterNames "aaa").encard = 2 := by
  have ha : (Parser.mk .letters .merge none).Admits "aaa" := by
    intro limit h
    cases h
  have hcount : ((Parser.mk .letters .merge none).fill Grammar.letterNames "aaa").toOption.map
      (fun f => (f.chart.topTrees.filter fun t => decide (t.kind = 0)).length) = some 2 := by
    decide +kernel
  obtain ⟨f, hfill, -, -, hcard⟩ := forest_of_keeping_policy (p := ⟨.letters, .merge, none⟩)
    Grammar.letters_isBuiltOver Policy.merge_keepsAll ha
  rw [hfill] at hcount
  refine ⟨Grammar.letters_isBuiltOver, Policy.merge_keepsAll, ha, hcard.trans ?_⟩
  exact congrArg Nat.cast (Option.some.inj hcount)

end ChartParsing.Parser
