import ChartParsing.Proofs.Chart.WinningSplit
import ChartParsing.Proofs.Parser.Answers

/-!
# A chart is what the recurrence says

The trees over a span can be said by recursion on its length, over the rules in the order in
which they were given and without a chart or an index (`Grammar.treesAt`). A parser commits
exactly these trees: over each span of the text a cell with the trees of the recurrence if
there are any, and nothing else. With a shipped policy the trees over a longer span are those
of the last or of the first split that joins anything.
-/

namespace ChartParsing

namespace Parser

variable {p : Parser} {names : NameTable} {text : String}

/-- The trees over the `l` characters from position `i`, as the recurrence gives them. -/
def treesAt (p : Parser) (names : NameTable) (text : String) (i l : Nat) : List (Tree Symbol) :=
  p.grammar.treesAt (characterSymbol names) p.policy text.toList i l

/-- The trees that a split of a span joins. -/
def joinedAt (p : Parser) (names : NameTable) (text : String) (i l k : Nat) :
    List (Tree Symbol) :=
  p.grammar.joinedTrees (p.treesAt names text i k) (p.treesAt names text (i + k) (l - k))

/-- A filled chart has a cell over a span exactly when the recurrence gives trees over it. -/
theorem Fills.get?_eq_some_iff {f : Filling Symbol} (hf : p.Fills names text f) {s : Span}
    {cell : Cell Symbol} : f.chart.get? s = some cell ↔
      ∃ i l : Nat, 0 < l ∧ i + l ≤ text.length ∧ s = ⟨i, l⟩ ∧
        p.treesAt names text i l ≠ [] ∧ cell = ⟨s, p.treesAt names text i l⟩ := by
  rw [← String.length_toList]
  constructor
  · intro h
    by_cases hs : s ∈ Grammar.spansOf text.toList.length
    · obtain ⟨i, l, hl, hi, rfl⟩ := Grammar.mem_spansOf.1 hs
      rw [hf.get?_of_mem hs] at h
      obtain ⟨hne, rfl⟩ := Grammar.cellOver?_eq_some_iff.1 h
      exact ⟨i, l, hl, hi, rfl, hne, rfl⟩
    · rw [hf.get?_of_not_mem hs] at h
      cases h
  · rintro ⟨i, l, hl, hi, rfl, hne, rfl⟩
    rw [hf.get?_of_mem (Grammar.mem_spansOf.2 ⟨i, l, hl, hi, rfl⟩)]
    exact Grammar.cellOver?_eq_some_iff.2 ⟨hne, rfl⟩

/-- With a policy that prefers splits in an order, the cell over a longer span has the trees
of the split that wins. -/
theorem Fills.get?_eq_some_iff_wins {f : Filling Symbol} (hf : p.Fills names text f)
    {order : Int → Int → Prop} (hp : p.policy.Prefers order) {i l : Nat} (hl : 2 ≤ l)
    (hi : i + l ≤ text.length) {cell : Cell Symbol} :
    f.chart.get? ⟨i, l⟩ = some cell ↔
      ∃ k, p.grammar.Wins (characterSymbol names) p.policy text.toList order i l k ∧
        cell = ⟨⟨i, l⟩, p.joinedAt names text i l k⟩ := by
  rw [hf.get?_eq_some_iff]
  constructor
  · rintro ⟨j, m, -, -, hs, hne, rfl⟩
    obtain ⟨rfl, rfl⟩ : i = j ∧ l = m := by
      simp only [Span.mk.injEq] at hs
      omega
    obtain ⟨k, hk⟩ := (Grammar.treesAt_ne_nil_iff hp hl).1 hne
    exact ⟨k, hk, congrArg (Cell.mk _) (Grammar.treesAt_eq_joinedAt hp hk)⟩
  · rintro ⟨k, hk, rfl⟩
    have htrees : p.treesAt names text i l = p.joinedAt names text i l k :=
      Grammar.treesAt_eq_joinedAt hp hk
    exact ⟨i, l, by omega, hi, rfl, htrees ▸ hk.joins.2.2, by rw [htrees]⟩

/-- The chart of a text holds the trees of the recurrence and nothing else; with a shipped
policy these come from the last or the first split that joins anything. -/
theorem chart_of_recurrence (hg : p.grammar.IsBuiltOver names) (hp : p.policy.StaysOver)
    (ha : p.Admits text) :
    (∃ d : Declarations Symbol, p.grammar = .ofDeclarations d ∧
      (∀ t, p.grammar.unitLefts t =
        (FirstSeen.ofList (d.unit.map (·.1))).filter fun a => decide ((a, t) ∈ d.unit)) ∧
      ∀ b c, p.grammar.binaryLefts b c =
        (FirstSeen.ofList (d.binary.map (·.1))).filter fun a => decide ((a, b, c) ∈ d.binary)) ∧
    ∃ f, p.fill names text = .ok f ∧
      (∀ s cell, f.chart.get? s = some cell ↔
        ∃ i l : Nat, 0 < l ∧ i + l ≤ text.length ∧ s = ⟨i, l⟩ ∧
          p.treesAt names text i l ≠ [] ∧ cell = ⟨s, p.treesAt names text i l⟩) ∧
      (p.policy = .rightmost → ∀ i l : Nat, 2 ≤ l → i + l ≤ text.length → ∀ cell,
        f.chart.get? ⟨i, l⟩ = some cell ↔
          ∃ k, IsGreatest {k | 0 < k ∧ k < l ∧ p.joinedAt names text i l k ≠ []} k ∧
            cell = ⟨⟨i, l⟩, p.joinedAt names text i l k⟩) ∧
      (p.policy = .leftmost → ∀ i l : Nat, 2 ≤ l → i + l ≤ text.length → ∀ cell,
        f.chart.get? ⟨i, l⟩ = some cell ↔
          ∃ k, IsLeast {k | 0 < k ∧ k < l ∧ p.joinedAt names text i l k ≠ []} k ∧
            cell = ⟨⟨i, l⟩, p.joinedAt names text i l k⟩) := by
  obtain ⟨-, d, -, -, hd⟩ := hg.exists_declarations
  obtain ⟨f, hfill, hf⟩ := exists_fill hg hp ha
  refine ⟨⟨d, hd, ?_, ?_⟩, f, hfill, fun s cell => hf.get?_eq_some_iff, ?_, ?_⟩
  · rw [hd]
    exact Grammar.unitLefts_ofDeclarations d
  · rw [hd]
    exact Grammar.binaryLefts_ofDeclarations d
  · intro hright i l hl hi cell
    have hprefers : p.policy.Prefers fun m k => m ≤ k := hright ▸ Policy.rightmost_prefers
    rw [hf.get?_eq_some_iff_wins hprefers hl hi]
    simp only [Grammar.wins_iff_isGreatest]
    rfl
  · intro hleft i l hl hi cell
    have hprefers : p.policy.Prefers fun m k => k ≤ m := hleft ▸ Policy.leftmost_prefers
    rw [hf.get?_eq_some_iff_wins hprefers hl hi]
    simp only [Grammar.wins_iff_isLeast]
    rfl

/-- Three letters under the most ambiguous grammar: the cell over all of them comes from the
second split, which is the last one that joins anything. -/
theorem chart_of_three_letters :
    Grammar.letters.IsBuiltOver Grammar.letterNames ∧ (ofGrammar .letters).policy.StaysOver ∧
      (ofGrammar .letters).Admits "aaa" ∧
      ∃ f cell, (ofGrammar .letters).fill Grammar.letterNames "aaa" = .ok f ∧
        f.chart.get? ⟨(0 : Nat), (3 : Nat)⟩ = some cell ∧
        cell.nodes = (ofGrammar .letters).joinedAt Grammar.letterNames "aaa" 0 3 2 := by
  have hp : (ofGrammar .letters).policy.StaysOver := Policy.rightmost_isHonest.staysOver
  have ha := ofGrammar_admits .letters "aaa"
  obtain ⟨-, f, hfill, -, hright, -⟩ :=
    chart_of_recurrence (p := ofGrammar .letters) Grammar.letters_isBuiltOver hp ha
  have hsome : (((ofGrammar .letters).fill Grammar.letterNames "aaa").toOption.bind fun f =>
      f.chart.get? ⟨0, 3⟩).isSome = true := by
    decide +kernel
  have hjoins : (ofGrammar .letters).joinedAt Grammar.letterNames "aaa" 0 3 2 ≠ [] := by
    decide +kernel
  rw [hfill] at hsome
  obtain ⟨cell, hcell⟩ := Option.isSome_iff_exists.1 hsome
  obtain ⟨k, hk, rfl⟩ := (hright rfl 0 3 (by decide) (by decide) cell).1 hcell
  have hlt : k < 3 := hk.1.2.1
  have hle : 2 ≤ k := hk.2 ⟨by decide, by decide, hjoins⟩
  obtain rfl : k = 2 := by omega
  exact ⟨Grammar.letters_isBuiltOver, hp, ha, f, _, hfill, hcell, rfl⟩

end Parser

end ChartParsing
