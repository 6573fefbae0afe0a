import ChartParsing.Proofs.Chart.Agreement

/-!
# The contests of a filled chart

While a chart is filled the policy is asked once for every span of more than one character, from
the shortest to the longest and from left to right (`Filling.IsFull.contests_eq`). What it is shown
can be read off the chart when all is done: the candidates of a span join what the chart has over
the parts of its splits (`Contest.IsHeldOn`). The log tells of the characters that are not
recognized, and then of the splits that compete for a cell (`Filling.IsFull.log_eq_append`).
-/

namespace ChartParsing

variable {σ : Type}

namespace Contest

/-- Several splits competed for a cell that is committed. -/
def isCompetition (c : Contest σ) : Bool :=
  decide (2 ≤ c.candidates.length) && !c.choice.trees.isEmpty

/-- What the log tells of splits that compete. -/
def entry (c : Contest σ) : LogEntry :=
  .competing c.span (c.candidates.map (·.split)) c.choice.split?

/-- A contest for a span of a chart: the policy was shown what each split of the span joins, in
increasing order of the splits that join anything, and the cell over the span is what it chose,
unless that was nothing or a cell without trees. -/
structure IsHeldOn [DecidableEq σ] (g : Grammar σ) (policy : Policy σ) (ch : Chart (Cell σ))
    (c : Contest σ) : Prop where
  choice_eq : c.choice = policy c.candidates
  increasing : (c.candidates.map (·.split)).Pairwise (· < ·)
  mem_splits_iff : ∀ k, k ∈ c.candidates.map (·.split) ↔
    ∃ left right, ch.get? (c.span.parts k).1 = some left ∧
      ch.get? (c.span.parts k).2 = some right ∧
      ∃ a, ∃ b ∈ left.kinds, ∃ d ∈ right.kinds, (b, d) ∈ g.binaryRules.get a
  joined : ∀ e ∈ c.candidates, ∀ left right, ch.get? (c.span.parts e.split).1 = some left →
    ch.get? (c.span.parts e.split).2 = some right →
      e.cell = ⟨c.span, g.joinedTrees left.nodes right.nodes⟩
  committed_iff : ∀ cell, ch.get? c.span = some cell ↔
    c.choice.cell? = some cell ∧ cell.nodes ≠ []

end Contest

/-- The trees of a cell are binary nodes whose left parts have a length. -/
def Cell.SplitsAt (c : Cell σ) (k : Int) : Prop :=
  ∀ t ∈ c.nodes, ∃ a left right, t = .binary a c.span left right ∧ left.span.length = k

/-- A contest ended with a split, or with none, and the cell over its span was split there. -/
def Contest.EndsAt (c : Contest σ) (ch : Chart (Cell σ)) (split? : Option Int) : Prop :=
  c.choice.split? = split? ∧
    ∀ cell, ch.get? c.span = some cell → ∃ k, split? = some k ∧ cell.SplitsAt k

theorem Choice.split?_ofCandidate? (c? : Option (Candidate σ)) :
    (ofCandidate? c?).split? = c?.map (·.split) := by
  cases c? <;> rfl

variable [DecidableEq σ] {g : Grammar σ} {lookup : Char → Option σ} {policy : Policy σ}
variable {text : List Char} {i l : Nat}

namespace Grammar

/-- The left part of a tree that a candidate offers is as long as its split says. -/
theorem splitsAt_of_mem_candidatesAt (hp : policy.StaysOver) {c : Candidate σ}
    (hc : c ∈ g.candidatesAt lookup policy text i l) : c.cell.SplitsAt c.split := by
  obtain ⟨k, hk, hkl, -, rfl⟩ := mem_candidatesAt.1 hc
  intro t ht
  obtain ⟨a, x, hx, y, hy, -, rfl⟩ := mem_joinedTrees.1 ht
  have hleft := span_of_mem_treesAt hp hx
  have hright := span_of_mem_treesAt hp hy
  refine ⟨a, x, y, ?_, by rw [hleft]⟩
  rw [Tree.branch, hleft, hright, followedBy_parts (Nat.le_of_lt hkl)]

/-- The cell over a longer span is what the policy chose, if that has trees. -/
theorem cellOver?_eq_some_iff_choice (hp : policy.StaysOver) (hl : 2 ≤ l) {c : Cell σ} :
    g.cellOver? lookup policy text ⟨i, l⟩ = some c ↔
      (g.contestOver lookup policy text ⟨i, l⟩).choice.cell? = some c ∧ c.nodes ≠ [] := by
  have htrees : g.treesOver lookup policy text ⟨i, l⟩ =
      (g.contestOver lookup policy text ⟨i, l⟩).choice.trees := treesAt_of_two_le hl
  have hover : ∀ c ∈ g.candidatesAt lookup policy text i l, c.cell.Covers ⟨i, l⟩ :=
    fun c hc => covers_of_mem_candidatesAt hp hc
  rw [cellOver?_eq_some_iff, htrees, Choice.trees]
  cases hchoice : (g.contestOver lookup policy text ⟨i, l⟩).choice.cell? with
  | none => simp
  | some cell =>
    have hspan : cell.nodes ≠ [] → cell.span = ⟨i, l⟩ :=
      fun hne => (hp _ _ hover cell hchoice hne).1
    simp only [Option.some.injEq]
    constructor
    · rintro ⟨hne, rfl⟩
      exact ⟨by rw [← hspan hne], hne⟩
    · rintro ⟨rfl, hne⟩
      exact ⟨hne, by rw [← hspan hne]⟩

end Grammar

namespace Filling

open Grammar

variable {f : Filling σ}

/-- The policy is asked once for every longer span, in the order in which these are decided. -/
theorem IsFull.contests_eq (h : f.IsFull g lookup policy text) :
    f.contests = (longerSpans text.length).map (g.contestOver lookup policy text) := by
  have hshortest : (shortestSpans text.length).filterMap (g.contestOver? lookup policy text) =
      [] := by
    rw [List.filterMap_eq_nil_iff]
    intro s hs
    obtain ⟨i, -, rfl⟩ := mem_shortestSpans.1 hs
    exact if_pos rfl
  have hlonger : (longerSpans text.length).filterMap (g.contestOver? lookup policy text) =
      (longerSpans text.length).map (g.contestOver lookup policy text) := by
    rw [← List.filterMap_eq_map]
    refine List.filterMap_congr fun s hs => ?_
    obtain ⟨i, l, hl, -, rfl⟩ := mem_longerSpans.1 hs
    have hlen : ¬ (l : Int) = 1 := by omega
    exact if_neg hlen
  rw [h.contests, spansOf, List.filterMap_append, hshortest, hlonger, List.nil_append]

/-- The spans of the contests. -/
theorem IsFull.contestSpans_eq (h : f.IsFull g lookup policy text) :
    f.contests.map (·.span) = longerSpans text.length := by
  rw [h.contests_eq, List.map_map]
  exact List.map_id _

/-- A longer span is told of when its contest was a competition. -/
theorem logOver?_eq (hl : 2 ≤ l) : g.logOver? lookup policy text ⟨i, l⟩ =
    if (g.contestOver lookup policy text ⟨i, l⟩).isCompetition then
      some (g.contestOver lookup policy text ⟨i, l⟩).entry else none := by
  have hlen : ¬ (l : Int) = 1 := by omega
  have htrees : g.treesOver lookup policy text ⟨i, l⟩ =
      (g.contestOver lookup policy text ⟨i, l⟩).choice.trees := treesAt_of_two_le hl
  rw [logOver?, if_neg hlen, htrees, contestLog, Contest.isCompetition, Contest.entry]
  by_cases hnil : (g.contestOver lookup policy text ⟨i, l⟩).choice.trees = []
  · simp [hnil]
  · simp [hnil, Nat.succ_le_iff]

/-- The log tells of each diagnostic, and then of each competition. -/
theorem IsFull.log_eq_append (h : f.IsFull g lookup policy text) (hne : text ≠ []) :
    f.log = f.chart.diagnostics.map (fun d => .unrecognized d.char d.position) ++
      (f.contests.filter Contest.isCompetition).map Contest.entry := by
  have hshortest : (shortestSpans text.length).filterMap (g.logOver? lookup policy text) =
      f.chart.diagnostics.map fun d => .unrecognized d.char d.position := by
    have hremarks : remarksOn text = [] := by simp [remarksOn, hne]
    rw [h.diagnostics_eq_shortest, hremarks, List.nil_append, List.map_filterMap]
    refine List.filterMap_congr fun s hs => ?_
    obtain ⟨i, -, rfl⟩ := mem_shortestSpans.1 hs
    by_cases hnil : (g.treesOver lookup policy text ⟨i, 1⟩).isEmpty
    · cases hc : text[i]? <;> simp [logOver?, diagnosticOver?, hnil, hc, Diagnostic.unrecognized]
    · simp [logOver?, diagnosticOver?, hnil]
  have hlonger : (longerSpans text.length).filterMap (g.logOver? lookup policy text) =
      (f.contests.filter Contest.isCompetition).map Contest.entry := by
    rw [h.contests_eq, List.filter_map, List.map_map, ← List.filterMap_eq_map,
      ← List.filterMap_eq_filter, List.filterMap_filterMap]
    refine List.filterMap_congr fun s hs => ?_
    obtain ⟨i, l, hl, -, rfl⟩ := mem_longerSpans.1 hs
    rw [logOver?_eq hl]
    by_cases hc : (g.contestOver lookup policy text ⟨i, l⟩).isCompetition <;>
      simp [Option.guard, hc]
  rw [h.log, spansOf, List.filterMap_append, hshortest, hlonger]

end Filling

end ChartParsing
