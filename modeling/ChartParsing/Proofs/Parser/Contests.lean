import ChartParsing.Proofs.Chart.Contests
import ChartParsing.Proofs.Parser.Failures
import ChartParsing.Proofs.Parser.Refinement

/-!
# What a policy is shown and what the log says

A parser asks its policy once for every span of more than one character. The candidates that it
shows are those splits of the span that join what the final chart has over their parts, each with
the trees that it joins; the cell over the span is what the policy chose. The log tells of every
diagnostic and then of every span whose splits competed for its cell
(`Parser.contests_of_honest_policy`).
-/

namespace ChartParsing

namespace Parser

open Grammar

variable {p : Parser} {names : NameTable} {text : String} {f : Filling Symbol}

/-- The parts of a split have cells in the chart when both are not empty and have trees. -/
theorem Fills.get?_parts_iff (hf : p.Fills names text f) {i l : Nat} (hi : i + l ≤ text.length)
    {k : Int} {left right : Cell Symbol} :
    f.chart.get? ((⟨i, l⟩ : Span).parts k).1 = some left ∧
        f.chart.get? ((⟨i, l⟩ : Span).parts k).2 = some right ↔
      ∃ m : Nat, k = m ∧ 0 < m ∧ m < l ∧ p.treesAt names text i m ≠ [] ∧
        p.treesAt names text (i + m) (l - m) ≠ [] ∧ left = ⟨⟨i, m⟩, p.treesAt names text i m⟩ ∧
        right = ⟨⟨(i + m : Nat), (l - m : Nat)⟩, p.treesAt names text (i + m) (l - m)⟩ := by
  rw [hf.get?_eq_some_iff, hf.get?_eq_some_iff]
  constructor
  · rintro ⟨⟨j, m, hm, -, hs, hne, rfl⟩, j', m', hm', -, hs', hne', rfl⟩
    simp only [Span.parts, Span.mk.injEq] at hs hs'
    obtain rfl : i = j := by omega
    obtain ⟨rfl, rfl⟩ : i + m = j' ∧ l - m = m' := by omega
    obtain ⟨-, rfl⟩ := hs
    rw [parts_mk (by omega)]
    exact ⟨m, rfl, hm, by omega, hne, hne', rfl, rfl⟩
  · rintro ⟨m, rfl, hm, hml, hne, hne', rfl, rfl⟩
    rw [parts_mk (Nat.le_of_lt hml)]
    exact ⟨⟨i, m, hm, by omega, rfl, hne, rfl⟩, i + m, l - m, by omega, by omega, rfl, hne', rfl⟩

/-- The contests of a filled chart were held on this chart. -/
theorem Fills.isHeldOn (hf : p.Fills names text f) (hp : p.policy.StaysOver)
    {contest : Contest Symbol} (hc : contest ∈ f.contests) :
    contest.IsHeldOn p.grammar p.policy f.chart := by
  obtain ⟨i, l, hl, hi, rfl⟩ := hf.mem_contests_iff.1 hc
  have hspan : (⟨i, l⟩ : Span) ∈ spansOf text.toList.length :=
    mem_spansOf.2 ⟨i, l, by omega, hi, rfl⟩
  rw [String.length_toList] at hi
  refine ⟨rfl, List.pairwise_map.2 pairwise_candidatesAt, fun k => ⟨?_, ?_⟩, ?_, fun cell => ?_⟩
  · intro hk
    obtain ⟨c, hc, rfl⟩ := List.mem_map.1 hk
    obtain ⟨m, hm, hml, hne, rfl⟩ := mem_candidatesAt.1 hc
    obtain ⟨t, ht⟩ := List.exists_mem_of_ne_nil _ hne
    obtain ⟨a, x, hx, y, hy, hrule, -⟩ := mem_joinedTrees.1 ht
    obtain ⟨hleft, hright⟩ := (hf.get?_parts_iff hi).2
      ⟨m, rfl, hm, hml, List.ne_nil_of_mem hx, List.ne_nil_of_mem hy, rfl, rfl⟩
    exact ⟨_, _, hleft, hright, a, x.kind, List.mem_map_of_mem hx, y.kind,
      List.mem_map_of_mem hy, hrule⟩
  · rintro ⟨left, right, hleft, hright, a, b, hb, d, hd, hrule⟩
    obtain ⟨m, rfl, hm, hml, -, -, rfl, rfl⟩ := (hf.get?_parts_iff hi).1 ⟨hleft, hright⟩
    obtain ⟨x, hx, rfl⟩ := List.mem_map.1 hb
    obtain ⟨y, hy, rfl⟩ := List.mem_map.1 hd
    have hne := List.ne_nil_of_mem (mem_joinedTrees.2 ⟨a, x, hx, y, hy, hrule, rfl⟩)
    exact List.mem_map.2 ⟨_, mem_candidatesAt.2 ⟨m, hm, hml, hne, rfl⟩, rfl⟩
  · intro e he left right hleft hright
    obtain ⟨k, -, -, -, rfl⟩ := mem_candidatesAt.1 he
    obtain ⟨m, hkm, -, -, -, -, rfl, rfl⟩ := (hf.get?_parts_iff hi).1 ⟨hleft, hright⟩
    obtain rfl := Int.ofNat_inj.1 hkm
    rfl
  · show f.chart.get? ⟨i, l⟩ = some cell ↔ _
    rw [hf.get?_of_mem hspan]
    exact cellOver?_eq_some_iff_choice hp hl

/-- A policy that picks a candidate by its place ends every contest with the split of this
candidate, or with none, and the cell over the span is split there. -/
theorem Fills.endsAt (hf : p.Fills names text f) (hp : p.policy.IsHonest)
    (pick : List (Candidate Symbol) → Option (Candidate Symbol))
    (hpick : p.policy = fun cs => .ofCandidate? (pick cs)) {contest : Contest Symbol}
    (hc : contest ∈ f.contests) :
    contest.EndsAt f.chart ((pick contest.candidates).map (·.split)) := by
  have hheld := hf.isHeldOn hp.staysOver hc
  have hchoice : contest.choice = .ofCandidate? (pick contest.candidates) := by
    rw [hheld.choice_eq, hpick]
  have hpicked := hp contest.candidates
  simp only [hpick] at hpicked
  refine ⟨by rw [hchoice, Choice.split?_ofCandidate?], fun cell hcell => ?_⟩
  obtain ⟨hchosen, -⟩ := (hheld.committed_iff cell).1 hcell
  rw [hchoice] at hchosen
  cases hcandidate : pick contest.candidates with
  | none =>
    rw [hcandidate] at hchosen
    cases hchosen
  | some c =>
    rw [hcandidate] at hchosen hpicked
    obtain rfl : c.cell = cell := Option.some.inj hchosen
    obtain ⟨i, l, -, -, rfl⟩ := hf.mem_contests_iff.1 hc
    exact ⟨c.split, rfl, splitsAt_of_mem_candidatesAt hp.staysOver hpicked⟩

/-- What a policy that invents nothing is shown, and what the log tells of it. It is asked once for
every span of more than one character, from the shortest to the longest and from left to right, and
each time it is shown what the splits of the span join in the final chart. The log tells of each
diagnostic, in the order of the text, and then of each competition. The split that it reports is the
last one that was shown to the policy that takes the last one, the first one with the policy that
takes the first one, and the cell over the span is split there. -/
theorem contests_of_honest_policy (hg : p.grammar.IsBuiltOver names) (hp : p.policy.IsHonest)
    (ha : p.Admits text) (hne : text ≠ "") :
    ∃ f, p.fill names text = .ok f ∧
      (f.contests.map (·.span)).Pairwise Span.Precedes ∧
      (∀ s, s ∈ f.contests.map (·.span) ↔
        ∃ i l : Nat, 2 ≤ l ∧ i + l ≤ text.length ∧ s = ⟨i, l⟩) ∧
      (∀ contest ∈ f.contests, contest.IsHeldOn p.grammar p.policy f.chart) ∧
      f.chart.diagnostics.Pairwise (fun d e => d.position < e.position) ∧
      f.log = f.chart.diagnostics.map (fun d => .unrecognized d.char d.position) ++
        (f.contests.filter Contest.isCompetition).map Contest.entry ∧
      (p.policy = .rightmost → ∀ contest ∈ f.contests,
        contest.EndsAt f.chart (contest.candidates.map (·.split)).getLast?) ∧
      (p.policy = .leftmost → ∀ contest ∈ f.contests,
        contest.EndsAt f.chart (contest.candidates.map (·.split)).head?) := by
  obtain ⟨f, hfill, hf⟩ := exists_fill hg hp.staysOver ha
  have hheld : ∀ contest ∈ f.contests, contest.IsHeldOn p.grammar p.policy f.chart :=
    fun contest hc => hf.isHeldOn hp.staysOver hc
  refine ⟨f, hfill, ?_, fun s => ?_, hheld, ?_, hf.log_eq_append (by simpa using hne),
    fun hright contest hc => ?_, fun hleft contest hc => ?_⟩
  · rw [hf.contestSpans_eq]
    exact pairwise_longerSpans _
  · rw [hf.contestSpans_eq, mem_longerSpans, String.length_toList]
  · rw [diagnostics_of_fills hg hf hne]
    exact pairwise_diagnosticsOn _ _
  · rw [List.getLast?_map]
    exact hf.endsAt hp (fun cs => cs.getLast?) hright hc
  · rw [List.head?_map]
    exact hf.endsAt hp (fun cs => cs.head?) hleft hc

/-- Behind a letter that the grammar does not know, the two splits of three letters compete. -/
theorem three_letters_compete :
    (ofGrammar .letters).grammar.IsBuiltOver Grammar.letterNames ∧
      (ofGrammar .letters).policy.IsHonest ∧ (ofGrammar .letters).Admits "baaa" ∧ "baaa" ≠ "" ∧
      ∃ f, (ofGrammar .letters).fill Grammar.letterNames "baaa" = .ok f ∧
        f.log = [.unrecognized "b" 0, .competing ⟨1, 3⟩ [1, 2] (some 2)] ∧
        ∀ cell, f.chart.get? ⟨1, 3⟩ = some cell → cell.SplitsAt 2 := by
  have hg : (ofGrammar .letters).grammar.IsBuiltOver Grammar.letterNames :=
    Grammar.letters_isBuiltOver
  have hp : (ofGrammar .letters).policy.IsHonest := Policy.rightmost_isHonest
  have ha := ofGrammar_admits .letters "baaa"
  have hne : "baaa" ≠ "" := by decide
  obtain ⟨f, hfill, -, hspans, -, -, hlog, hright, -⟩ := contests_of_honest_policy hg hp ha hne
  have hdiagnostics : ((ofGrammar .letters).fill Grammar.letterNames "baaa").toOption.map
      (·.chart.diagnostics) = some [.unrecognized 0 "b"] := by
    decide +kernel
  have hcompetitions : ((ofGrammar .letters).fill Grammar.letterNames "baaa").toOption.map
      (fun f => (f.contests.filter Contest.isCompetition).map Contest.entry) =
        some [.competing ⟨1, 3⟩ [1, 2] (some 2)] := by
    decide +kernel
  have hsplits : ((ofGrammar .letters).fill Grammar.letterNames "baaa").toOption.map
      (fun f => f.contests.all fun contest =>
        contest.span != ⟨1, 3⟩ || contest.candidates.map (·.split) == [1, 2]) = some true := by
    decide +kernel
  rw [hfill] at hdiagnostics hcompetitions hsplits
  have hdiagnostics : f.chart.diagnostics = [.unrecognized 0 "b"] := Option.some.inj hdiagnostics
  have hcompetitions : (f.contests.filter Contest.isCompetition).map Contest.entry =
      [.competing ⟨1, 3⟩ [1, 2] (some 2)] := Option.some.inj hcompetitions
  have hall := Option.some.inj hsplits
  refine ⟨hg, hp, ha, hne, f, hfill, ?_, fun cell hcell => ?_⟩
  · rw [hlog, hdiagnostics, hcompetitions]
    rfl
  · have hmem : (⟨1, 3⟩ : Span) ∈ f.contests.map (·.span) :=
      (hspans _).2 ⟨1, 3, by decide, by decide, rfl⟩
    obtain ⟨contest, hcontest, hspan⟩ := List.mem_map.1 hmem
    have hfound := List.all_eq_true.1 hall contest hcontest
    simp only [hspan, bne_self_eq_false, Bool.false_or, beq_iff_eq] at hfound
    obtain ⟨-, hends⟩ := hright rfl contest hcontest
    rw [← hspan] at hcell
    obtain ⟨k, hk, hat⟩ := hends cell hcell
    rw [hfound] at hk
    obtain rfl : (2 : Int) = k := Option.some.inj hk
    exact hat

end Parser

end ChartParsing
