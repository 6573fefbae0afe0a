import ChartParsing.Proofs.Chart.Agreement
import ChartParsing.Proofs.Parser.Answers

/-!
# When the choice of the policy does not matter

If in every contest for a text all candidates have the same symbols, the cells of the chart
hold exactly the symbols that derive their spans, and the parser recognizes the language of
its grammar on the text, under this policy and under every other one that chooses a candidate
whenever there is one. If no splits compete at all, all such policies lead to the same chart
and to the same answer.
-/

namespace ChartParsing.Parser

variable {p : Parser} {names : NameTable} {text : String}

/-- The parser with another policy. -/
def withPolicy (p : Parser) (policy : Policy Symbol) : Parser := { p with policy }

theorem withPolicy_admits {policy : Policy Symbol} (h : p.Admits text) :
    (p.withPolicy policy).Admits text := h

section Decisive

variable (hg : p.grammar.IsBuiltOver names) (hp : p.policy.IsDecisive) {f : Filling Symbol}
variable (hf : p.Fills names text f) {policy : Policy Symbol}

include hg hp hf

/-- If the contests for one policy agree, the trees over every span have the symbols that
derive it, whatever the policy chooses. -/
theorem isExactOver_of_contestsAgree (hagree : f.ContestsAgree) (hp' : policy.IsDecisive)
    {i l : Nat} (hi : i + l ≤ text.toList.length) :
    p.grammar.IsExactOver (characterSymbol names) names.Spells policy text.toList i l := by
  have huniform : p.grammar.IsUniform names.Spells text.toList :=
    Grammar.isUniform_of_sameKinds hg.reads hp (hf.contestsAgree_iff.1 hagree)
  exact Grammar.isExactOver_of_isUniform hg.reads hp' huniform hi

/-- If no splits compete under one policy, every other one fills the same chart and answers
the same. -/
theorem chart_eq_and_parse_eq (hlog : f.LogsNoCompetition) (hfill : p.fill names text = .ok f)
    (hp' : policy.IsDecisive) {f' : Filling Symbol}
    (hfill' : (p.withPolicy policy).fill names text = .ok f') :
    f'.chart = f.chart ∧ (p.withPolicy policy).parse names text = p.parse names text := by
  have hf' : (p.withPolicy policy).Fills names text f' :=
    fills_of_fill (p := p.withPolicy policy) hg hp'.staysOver hfill'
  have hone : ∀ i l, 2 ≤ l → i + l ≤ text.toList.length →
      (p.grammar.candidatesAt (characterSymbol names) p.policy text.toList i l).length ≤ 1 :=
    fun i l hl hi => hf.length_candidatesAt_le_one hp hlog hl hi
  have htrees : ∀ i l, p.grammar.treesAt (characterSymbol names) policy text.toList i l =
      p.grammar.treesAt (characterSymbol names) p.policy text.toList i l :=
    fun i l => Grammar.treesAt_eq_of_decisive hg.reads hp hp' hone
  have hchart : f'.chart = f.chart := hf.chart_eq hf' htrees
  refine ⟨hchart, ?_⟩
  rw [parse_of_fill hfill', parse_of_fill hfill, hchart, hf.log_eq hf' htrees hone]
  rfl

end Decisive

/-- Contests in which nothing is lost give exact charts, whatever the policy. -/
theorem agreement_of_decisive_policies (hg : p.grammar.IsBuiltOver names)
    (hp : p.policy.IsDecisive) (ha : p.Admits text) :
    ∃ f, p.fill names text = .ok f ∧
      (f.LogsNoCompetition → f.ContestsAgree) ∧
      (f.ContestsAgree → ∀ policy : Policy Symbol, policy.IsDecisive →
        ∃ f', (p.withPolicy policy).fill names text = .ok f' ∧
          (∀ i l : Nat, i + l ≤ text.length → ∀ a,
            a ∈ (f'.chart.treesOn ⟨i, l⟩).map Tree.kind ↔
              p.grammar.DerivesText names.Spells a (slice text.toList i l)) ∧
          ((p.withPolicy policy).recognize names text = .ok true ↔
            p.grammar.DerivesText names.Spells p.grammar.start text.toList)) ∧
      (f.LogsNoCompetition → ∀ policy : Policy Symbol, policy.IsDecisive →
        ∃ f', (p.withPolicy policy).fill names text = .ok f' ∧ f'.chart = f.chart ∧
          (p.withPolicy policy).parse names text = p.parse names text) := by
  obtain ⟨f, hfill, hf⟩ := exists_fill hg hp.staysOver ha
  have hfilled : ∀ policy : Policy Symbol, policy.IsDecisive →
      ∃ f', (p.withPolicy policy).fill names text = .ok f' ∧
        (p.withPolicy policy).Fills names text f' :=
    fun policy hp' => exists_fill (p := p.withPolicy policy) hg hp'.staysOver (withPolicy_admits ha)
  refine ⟨f, hfill, fun hlog => ?_, fun hagree policy hp' => ?_, fun hlog policy hp' => ?_⟩
  · apply hf.contestsAgree_iff.2
    intro i l hl hi
    exact sameKinds_of_length_le_one (hf.length_candidatesAt_le_one hp hlog hl hi)
  · obtain ⟨f', hfill', hf'⟩ := hfilled policy hp'
    refine ⟨f', hfill', fun i l hi a => ?_, ?_⟩
    · rw [← String.length_toList] at hi
      rw [← isExactOver_of_contestsAgree hg hp hf hagree hp' hi a, List.mem_map,
        hf'.treesOn_eq hi]
      rfl
    · apply recognize_iff_of_isExactOver (p := p.withPolicy policy) hg hp'.staysOver
        (withPolicy_admits ha)
      exact isExactOver_of_contestsAgree hg hp hf hagree hp' (Nat.le_of_eq (Nat.zero_add _))
  · obtain ⟨f', hfill', -⟩ := hfilled policy hp'
    obtain ⟨hchart, hparse⟩ := chart_eq_and_parse_eq hg hp hf hlog hfill hp' hfill'
    exact ⟨f', hfill', hchart, hparse⟩

/-- Three letters under the most ambiguous grammar: two splits compete, but both give the
start symbol, so the first split does as well as the last one. Two letters have no splits that
compete, and one tree. -/
theorem letters_agree :
    Grammar.letters.IsBuiltOver Grammar.letterNames ∧
      (ofGrammar .letters).policy.IsDecisive ∧ (∀ text, (ofGrammar .letters).Admits text) ∧
      (∃ f, (ofGrammar .letters).fill Grammar.letterNames "aaa" = .ok f ∧ f.ContestsAgree) ∧
      Grammar.letters.DerivesText Grammar.letterNames.Spells Grammar.letters.start
        ['a', 'a', 'a'] ∧
      (∃ f, (ofGrammar .letters).fill Grammar.letterNames "aa" = .ok f ∧ f.LogsNoCompetition) ∧
      ((ofGrammar .letters).withPolicy .leftmost).parse Grammar.letterNames "aa" =
        (ofGrammar .letters).parse Grammar.letterNames "aa" := by
  have hg := Grammar.letters_isBuiltOver
  have ha := ofGrammar_admits .letters
  have hp : (ofGrammar .letters).policy.IsDecisive := Policy.rightmost_isDecisive
  have hq : (Policy.leftmost : Policy Symbol).IsDecisive := Policy.leftmost_isDecisive
  obtain ⟨f, hfill, -, hexact, -⟩ :=
    agreement_of_decisive_policies (p := ofGrammar .letters) hg hp (ha "aaa")
  obtain ⟨f', hfill', -, -, hsame⟩ :=
    agreement_of_decisive_policies (p := ofGrammar .letters) hg hp (ha "aa")
  have hkinds : ((ofGrammar .letters).fill Grammar.letterNames "aaa").toOption.map (fun f =>
      f.contests.all fun contest => contest.candidates.all fun c => c.cell.kinds == [0]) =
        some true := by
    decide +kernel
  have hagree : f.ContestsAgree := by
    rw [hfill] at hkinds
    have hall := Option.some.inj hkinds
    simp only [List.all_eq_true, beq_iff_eq] at hall
    intro contest hcontest c hc d hd a
    rw [hall contest hcontest c hc, hall contest hcontest d hd]
  have hempty : ((ofGrammar .letters).fill Grammar.letterNames "aa").toOption.map (·.log) =
      some [] := by
    decide +kernel
  have hlog : f'.LogsNoCompetition := by
    rw [hfill'] at hempty
    have hnil : f'.log = [] := Option.some.inj hempty
    intro span splits committed hmem
    rw [hnil] at hmem
    cases hmem
  have htrue :
      ((ofGrammar .letters).withPolicy .leftmost).recognize Grammar.letterNames "aaa" = .ok true :=
    eq_ok_of_toOption (by decide +kernel)
  obtain ⟨-, -, -, hderives⟩ := hexact hagree .leftmost hq
  obtain ⟨-, -, -, hparse⟩ := hsame hlog .leftmost hq
  exact ⟨hg, hp, ha, ⟨f, hfill, hagree⟩, hderives.1 htrue, ⟨f', hfill', hlog⟩, hparse⟩

end ChartParsing.Parser
